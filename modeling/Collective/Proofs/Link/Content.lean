import Collective.Link.Basic
import Collective.Proofs.Link.Framing

/-!
# What a stream brings

The frames of a stream are decoded one after another, up to the first that cannot be decoded or the
point where there is no whole frame. That much is settled by the stream (`Inlet.Brings.unique`), and
once there is a reason to stop other than that bytes are missing, it does not change any more.
-/

namespace Collective

open Collective.Frame

/-- How the messages of a stream come to an end. -/
inductive Ending where
  /-- They have not; more may arrive. -/
  | waiting
  /-- The peer has ended the stream behind a whole frame. -/
  | finished
  | failed (e : TransportError)
  deriving DecidableEq, Repr

/-- A buffer holds a part of a frame that may be sent, or nothing. -/
def Frame.Cut (max : Nat) (buffer : Bytes) : Prop :=
  buffer.length < lengthWidth ∨
    announced buffer ≤ max ∧ buffer.length < lengthWidth + announced buffer

namespace Inlet

variable {α : Type} {decode : Bytes → Except CodecError α} {max : Nat} {i left : Inlet}
  {content : Bytes} {frames : List Bytes} {values later : List α} {ending : Ending}

/-- Frames that may be sent, and the messages in them. -/
def Reads (decode : Bytes → Except CodecError α) (max : Nat) (frames : List Bytes)
    (values : List α) : Prop :=
  List.Forall₂ (fun frame value => Fits max frame ∧ decode frame = .ok value) frames values

/-- Why a stream has no message at its front. -/
inductive Stops (decode : Bytes → Except CodecError α) (max : Nat) (i : Inlet) : Ending → Prop
  | undecodable {content rest : Bytes} {e : CodecError} (hbuffer : i.buffer = wire content ++ rest)
      (hfits : Fits max content) (hdecode : decode content = .error e) :
      Stops decode max i (.failed (.serialization e))
  | oversize (hlong : lengthWidth ≤ i.buffer.length) (hmax : max < announced i.buffer) :
      Stops decode max i (.failed (Link.streamError (.oversize ⟨announced i.buffer, max⟩)))
  | unfinished (hended : i.ended = true) (hcut : Cut max i.buffer) (hne : i.buffer ≠ []) :
      Stops decode max i (.failed (Link.streamError .unfinished))
  | finished (hended : i.ended = true) (hempty : i.buffer = []) : Stops decode max i .finished
  | waiting (hended : i.ended = false) (hcut : Cut max i.buffer) : Stops decode max i .waiting

/-- A stream begins with frames that hold these messages, and behind them there is none, for this
reason. -/
def Brings (decode : Bytes → Except CodecError α) (max : Nat) (i : Inlet) (values : List α)
    (ending : Ending) : Prop :=
  ∃ frames left, i.buffer = wires frames ++ left ∧ Reads decode max frames values ∧
    Stops decode max ⟨left, i.ended⟩ ending

/-! ## What a stream offers -/

theorem offer?_of_next_frame {rest : Bytes} (h : next max i.buffer = .frame content rest) :
    i.offer? max = some (.frame content, { i with buffer := rest }) := by
  rw [offer?]
  cases i.ended <;> simp [decodeEnd, decode, h]

theorem offer?_of_next_oversize {e : Oversize} (h : next max i.buffer = .oversize e) :
    i.offer? max = some (.fault (.oversize e), i) := by
  rw [offer?]
  cases i.ended <;> simp [decodeEnd, decode, h]

theorem offer?_of_next_incomplete (h : next max i.buffer = .incomplete) :
    i.offer? max = if i.ended then
      if i.buffer = [] then some (.finished, i) else some (.fault .unfinished, i) else none := by
  rw [offer?]
  cases i.ended
  · simp [decode, h]
  · simp only [decodeEnd, decode, h, if_true, List.isEmpty_iff]
    by_cases hempty : i.buffer = []
    · rw [if_pos hempty, if_pos hempty]
    · rw [if_neg hempty, if_neg hempty]

/-- A frame that a stream offers stands at its front, and nothing else is taken. -/
theorem offer?_eq_frame (h : i.offer? max = some (.frame content, left)) :
    Fits max content ∧ i.buffer = wire content ++ left.buffer ∧ left.ended = i.ended := by
  cases hnext : next max i.buffer with
  | frame other rest =>
    rw [offer?_of_next_frame hnext] at h
    cases h
    obtain ⟨hfits, hbuffer⟩ := next_eq_frame_iff_wire.1 hnext
    exact ⟨hfits, hbuffer, rfl⟩
  | oversize e =>
    rw [offer?_of_next_oversize hnext] at h
    cases h
  | incomplete =>
    rw [offer?_of_next_incomplete hnext] at h
    split at h
    · split at h <;> cases h
    · cases h

/-- How a stream ends that offers this, if it is no frame. -/
def ending? : Option Offer → Option Ending
  | none => some .waiting
  | some .finished => some .finished
  | some (.fault fault) => some (.failed (Link.streamError fault))
  | some (.frame _) => none

theorem exists_frame_of_ending? (h : ending? ((i.offer? max).map (·.1)) = none) :
    ∃ content left, i.offer? max = some (.frame content, left) := by
  cases hoffer : i.offer? max with
  | none =>
    rw [hoffer] at h
    cases h
  | some offered =>
    obtain ⟨offer, left⟩ := offered
    rw [hoffer] at h
    cases offer with
    | frame content => exact ⟨content, left, rfl⟩
    | _ => cases h

/-- What a stream offers that is no frame, or that it offers nothing, is why it stops. -/
theorem stops_of_offer? (h : ending? ((i.offer? max).map (·.1)) = some ending) :
    Stops decode max i ending := by
  cases hnext : next max i.buffer with
  | frame content rest =>
    rw [offer?_of_next_frame hnext] at h
    cases h
  | oversize e =>
    rw [offer?_of_next_oversize hnext] at h
    obtain ⟨hlong, hmax, rfl⟩ := next_eq_oversize_iff.1 hnext
    obtain rfl := Option.some.inj h
    exact .oversize hlong hmax
  | incomplete =>
    have hcut : Cut max i.buffer := next_eq_incomplete_iff.1 hnext
    rw [offer?_of_next_incomplete hnext] at h
    split at h
    · next hended =>
      split at h
      · next hempty =>
        obtain rfl := Option.some.inj h
        exact .finished hended hempty
      · next hempty =>
        obtain rfl := Option.some.inj h
        exact .unfinished hended hcut hempty
    · next hended =>
      obtain rfl := Option.some.inj h
      exact .waiting (by simpa using hended) hcut

/-! ## The messages of a stream -/

/-- Why a stream has no message at its front, if it has none. -/
def stop? (decode : Bytes → Except CodecError α) (max : Nat) (i : Inlet) : Option Ending :=
  match next max i.buffer with
  | .frame content _ =>
    match decode content with
    | .ok _ => none
    | .error e => some (.failed (.serialization e))
  | .oversize e => some (.failed (Link.streamError (.oversize e)))
  | .incomplete =>
    some <| if i.ended then if i.buffer = [] then .finished
      else .failed (Link.streamError .unfinished) else .waiting

theorem stop?_of_message {rest : Bytes} {value : α} (hbuffer : i.buffer = wire content ++ rest)
    (hfits : Fits max content) (hdecode : decode content = .ok value) :
    i.stop? decode max = none := by
  rw [stop?, hbuffer, next_wire_append hfits]
  dsimp only
  rw [hdecode]

theorem Stops.stop?_eq (h : Stops decode max i ending) : i.stop? decode max = some ending := by
  rw [stop?]
  cases h with
  | undecodable hbuffer hfits hdecode =>
    rw [hbuffer, next_wire_append hfits]
    dsimp only
    rw [hdecode]
  | oversize hlong hmax => rw [next_eq_oversize_iff.2 ⟨hlong, hmax, rfl⟩, announced]
  | unfinished hended hcut hne =>
    rw [next_eq_incomplete_iff.2 hcut]
    dsimp only
    rw [hended, if_pos rfl, if_neg hne]
  | finished hended hempty =>
    rw [next_eq_incomplete_iff.2 (.inl (hempty ▸ Nat.zero_lt_succ _))]
    dsimp only
    rw [hended, if_pos rfl, if_pos hempty]
  | waiting hended hcut =>
    rw [next_eq_incomplete_iff.2 hcut]
    dsimp only
    rw [hended]
    rfl

/-- A stream settles which messages it brings, and how they end. -/
theorem Brings.unique (h : Brings decode max i values ending) {other : Ending}
    (g : Brings decode max i later other) : values = later ∧ ending = other := by
  obtain ⟨frames, left, hbuffer, hreads, hstops⟩ := h
  obtain ⟨frames', left', hbuffer', hreads', hstops'⟩ := g
  rw [hbuffer] at hbuffer'
  clear hbuffer
  induction hreads generalizing frames' later with
  | nil =>
    cases hreads' with
    | nil =>
      obtain rfl : left = left' := hbuffer'
      exact ⟨rfl, Option.some.inj (hstops.stop?_eq.symm.trans hstops'.stop?_eq)⟩
    | cons hread _ =>
      rw [wires_cons, List.append_assoc] at hbuffer'
      cases hstops.stop?_eq.symm.trans (stop?_of_message hbuffer' hread.1 hread.2)
  | @cons frame value frames values hread _ ih =>
    rw [wires_cons, List.append_assoc] at hbuffer'
    cases hreads' with
    | nil => cases hstops'.stop?_eq.symm.trans (stop?_of_message hbuffer'.symm hread.1 hread.2)
    | @cons frame' value' frames' values' hread' hreads' =>
      rw [wires_cons, List.append_assoc] at hbuffer'
      have hnext := next_wire_append hread.1 (wires frames ++ left)
      rw [hbuffer', next_wire_append hread'.1] at hnext
      obtain ⟨rfl, hrest⟩ := Next.frame.inj hnext
      obtain rfl := Except.ok.inj (hread.2.symm.trans hread'.2)
      obtain ⟨rfl, rfl⟩ := ih _ hrest.symm hreads'
      exact ⟨rfl, rfl⟩

/-- Messages in front are brought first. -/
theorem Brings.append {s : Inlet} (h : Brings decode max left later ending)
    (hbuffer : s.buffer = wires frames ++ left.buffer) (hended : s.ended = left.ended)
    (hreads : Reads decode max frames values) :
    Brings decode max s (values ++ later) ending := by
  obtain ⟨frames', rest, hleft, hlater, hstops⟩ := h
  refine ⟨frames ++ frames', rest, ?_, List.rel_append hreads hlater, hended ▸ hstops⟩
  rw [hbuffer, hleft, wires_append, List.append_assoc]

theorem Stops.brings (h : Stops decode max i ending) : Brings decode max i [] ending :=
  ⟨[], i.buffer, rfl, .nil, h⟩

/-- Every stream brings some messages, and ends somehow. -/
theorem exists_brings (decode : Bytes → Except CodecError α) (max : Nat) (i : Inlet) :
    ∃ values ending, Brings decode max i values ending := by
  induction hlength : i.buffer.length using Nat.strongRecOn generalizing i with
  | ind n ih =>
    cases hending : ending? ((i.offer? max).map (·.1)) with
    | some ending => exact ⟨[], ending, (stops_of_offer? hending).brings⟩
    | none =>
      obtain ⟨content, left, hoffer⟩ := exists_frame_of_ending? hending
      obtain ⟨hfits, hbuffer, hended⟩ := offer?_eq_frame hoffer
      cases hdecode : decode content with
      | error e => exact ⟨[], _, (Stops.undecodable hbuffer hfits hdecode).brings⟩
      | ok value =>
        have hlt : left.buffer.length < n := by
          rw [← hlength, hbuffer, List.length_append, length_wire, lengthWidth]
          omega
        obtain ⟨values, ending, hbrings⟩ := ih _ hlt left rfl
        have hread : Reads decode max [content] [value] := .cons ⟨hfits, hdecode⟩ .nil
        refine ⟨[value] ++ values, ending, hbrings.append ?_ hended.symm hread⟩
        rw [hbuffer, wires_cons, wires_nil, List.append_nil]

/-- A stream that has gone wrong stays so, whatever follows. -/
theorem Stops.grow (h : Stops decode max i ending) (hended : i.ended = false)
    (hending : ending ≠ .waiting) (more : Bytes) (ended : Bool) :
    Stops decode max ⟨i.buffer ++ more, ended⟩ ending := by
  cases h with
  | @undecodable content rest e hbuffer hfits hdecode =>
    have hgrown : i.buffer ++ more = wire content ++ (rest ++ more) := by
      rw [hbuffer, List.append_assoc]
    exact .undecodable hgrown hfits hdecode
  | oversize hlong hmax =>
    have hsame : announced (i.buffer ++ more) = announced i.buffer := by
      rw [announced, List.take_append_of_le_length hlong, announced]
    rw [← hsame] at hmax ⊢
    exact .oversize (Nat.le_trans hlong (List.length_append ▸ Nat.le_add_right ..)) hmax
  | unfinished htrue => cases hended.symm.trans htrue
  | finished htrue => cases hended.symm.trans htrue
  | waiting => exact absurd rfl hending

/-- When the messages of a stream have ended, they have ended for good. -/
theorem Brings.grow (h : Brings decode max i values ending) (hended : i.ended = false)
    (hending : ending ≠ .waiting) (more : Bytes) (ended : Bool) :
    Brings decode max ⟨i.buffer ++ more, ended⟩ values ending := by
  obtain ⟨frames, left, hbuffer, hreads, hstops⟩ := h
  refine ⟨frames, left ++ more, ?_, hreads, hstops.grow hended hending more ended⟩
  rw [hbuffer, List.append_assoc]

end Inlet

end Collective
