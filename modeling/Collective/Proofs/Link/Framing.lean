import Collective.Link.Stream
import Collective.Proofs.Answer

/-!
# Framing

A buffer begins with a whole frame exactly when it begins with the bytes that send it
(`next_eq_frame_iff_wire`). Hence the frames taken off a stream and the bytes left over are settled
by the stream alone, not by the pieces in which it arrives, and together they are the stream.
-/

namespace Collective.Frame

variable {max : Nat} {buffer content rest left more : Bytes} {frames later : List Bytes}

/-- The bytes of a frame on a connection: its length and its content. -/
def wire (content : Bytes) : Bytes := Bytes.ofNat lengthWidth content.length ++ content

/-- The bytes of frames that follow each other. -/
def wires (frames : List Bytes) : Bytes := frames.flatMap wire

/-- Both the maximum and the bytes for the length leave room for a frame. -/
def Fits (max : Nat) (content : Bytes) : Prop := content.length ≤ max ∧ content.length < 2 ^ 32

/-- The length of a frame that the first bytes of a buffer announce. -/
def announced (buffer : Bytes) : Nat := Bytes.toNat (buffer.take lengthWidth)

theorem encode_eq_wire (h : content.length ≤ max) : encode max content = .ok (wire content) := by
  rw [encode, if_neg (Nat.not_lt.2 h), wire]

@[simp] theorem wires_nil : wires [] = [] := rfl

@[simp] theorem wires_cons (content : Bytes) (frames : List Bytes) :
    wires (content :: frames) = wire content ++ wires frames := rfl

@[simp] theorem wires_append (frames later : List Bytes) :
    wires (frames ++ later) = wires frames ++ wires later := List.flatMap_append

theorem length_wire (content : Bytes) : (wire content).length = lengthWidth + content.length := by
  rw [wire, List.length_append, Bytes.length_ofNat]

/-- Of a length only what fits its bytes is announced. -/
theorem announced_wire_eq_mod (content rest : Bytes) :
    announced (wire content ++ rest) = content.length % 2 ^ 32 := by
  rw [announced, wire, List.append_assoc, List.take_left' (Bytes.length_ofNat ..),
    Bytes.toNat_ofNat]
  rfl

theorem announced_wire (h : content.length < 2 ^ 32) (rest : Bytes) :
    announced (wire content ++ rest) = content.length :=
  (announced_wire_eq_mod content rest).trans (Nat.mod_eq_of_lt h)

/-- Behind the length of a frame stands its content. -/
theorem drop_wire (content rest : Bytes) :
    (wire content ++ rest).drop lengthWidth = content ++ rest := by
  rw [wire, List.append_assoc, List.drop_left' (Bytes.length_ofNat ..)]

/-! ## Whole frames -/

/-- A buffer begins with a whole frame exactly if it begins with the bytes that send the frame. -/
theorem next_eq_frame_iff_wire :
    next max buffer = .frame content rest ↔ Fits max content ∧ buffer = wire content ++ rest := by
  constructor
  · intro h
    obtain ⟨hlong, hmax, hbody, rfl, rfl⟩ := next_eq_frame_iff.1 h
    have htake : (buffer.take lengthWidth).length = lengthWidth := List.length_take_of_le hlong
    have hlength : ((buffer.drop lengthWidth).take (announced buffer)).length =
        announced buffer := List.length_take_of_le hbody
    have hlt : announced buffer < 2 ^ 32 := by
      have := Bytes.toNat_lt (buffer.take lengthWidth)
      rwa [htake] at this
    rw [announced] at hlength hlt
    rw [Fits, hlength]
    refine ⟨⟨hmax, hlt⟩, ?_⟩
    have hfront := Bytes.ofNat_toNat (buffer.take lengthWidth)
    rw [htake] at hfront
    rw [wire, hlength, hfront, List.append_assoc, List.take_append_drop,
      List.take_append_drop]
  · rintro ⟨⟨hmax, hlt⟩, rfl⟩
    have hannounced := announced_wire hlt rest
    rw [announced] at hannounced
    rw [next_eq_frame_iff, hannounced, drop_wire, List.take_left, List.drop_left]
    refine ⟨?_, hmax, ?_, rfl, rfl⟩
    · rw [List.length_append, length_wire, Nat.add_assoc]
      exact Nat.le_add_right ..
    · rw [List.length_append]
      exact Nat.le_add_right ..

theorem next_wire_append (h : Fits max content) (rest : Bytes) :
    next max (wire content ++ rest) = .frame content rest :=
  next_eq_frame_iff_wire.2 ⟨h, rfl⟩

/-! ## Taking all frames -/

theorem takeAll_of_frame (h : next max buffer = .frame content rest) :
    takeAll max buffer = (content :: (takeAll max rest).1, (takeAll max rest).2) := by
  rw [takeAll]
  split
  · next content' rest' h' =>
    obtain ⟨rfl, rfl⟩ := Next.frame.inj (h.symm.trans h')
    rfl
  · next h' => cases h.symm.trans h'
  · next h' => cases h.symm.trans h'

theorem takeAll_of_no_frame (h : ∀ content rest, next max buffer ≠ .frame content rest) :
    takeAll max buffer = ([], buffer) := by
  rw [takeAll]
  split
  · next h' => exact absurd h' (h _ _)
  · rfl
  · rfl

@[simp] theorem takeAll_nil (max : Nat) : takeAll max [] = ([], []) := takeAll_of_no_frame nofun

/-- Frames that stand in front are taken first. -/
theorem takeAll_wires_append (h : ∀ f ∈ frames, Fits max f) (rest : Bytes) :
    takeAll max (wires frames ++ rest) =
      (frames ++ (takeAll max rest).1, (takeAll max rest).2) := by
  induction frames with
  | nil => rfl
  | cons f frames ih =>
    rw [List.forall_mem_cons] at h
    rw [wires_cons, List.append_assoc, takeAll_of_frame (next_wire_append h.1 _), ih h.2]
    rfl

/-- The frames taken are the front of the buffer, and no frame is at the front of what is left. -/
theorem takeAll_spec (max : Nat) (buffer : Bytes) :
    buffer = wires (takeAll max buffer).1 ++ (takeAll max buffer).2 ∧
      (∀ f ∈ (takeAll max buffer).1, Fits max f) ∧
        ∀ content rest, next max (takeAll max buffer).2 ≠ .frame content rest := by
  induction hlength : buffer.length using Nat.strongRecOn generalizing buffer with
  | ind n ih =>
    cases hnext : next max buffer with
    | frame content rest =>
      obtain ⟨hfits, hbuffer⟩ := next_eq_frame_iff_wire.1 hnext
      obtain ⟨heq, hall, hlast⟩ := ih _ (hlength ▸ length_lt_of_next hnext) rest rfl
      rw [takeAll_of_frame hnext]
      refine ⟨?_, ?_, hlast⟩
      · rw [wires_cons, List.append_assoc, ← heq, hbuffer]
      · exact List.forall_mem_cons.2 ⟨hfits, hall⟩
    | incomplete =>
      have hnone : ∀ content rest, next max buffer ≠ .frame content rest := by simp [hnext]
      rw [takeAll_of_no_frame hnone]
      exact ⟨rfl, nofun, hnone⟩
    | oversize e =>
      have hnone : ∀ content rest, next max buffer ≠ .frame content rest := by simp [hnext]
      rw [takeAll_of_no_frame hnone]
      exact ⟨rfl, nofun, hnone⟩

/-- Bytes that arrive later stand behind those that were left over. -/
theorem takeAll_append (max : Nat) (buffer more : Bytes) :
    takeAll max (buffer ++ more) =
      ((takeAll max buffer).1 ++ (takeAll max ((takeAll max buffer).2 ++ more)).1,
        (takeAll max ((takeAll max buffer).2 ++ more)).2) := by
  obtain ⟨hbuffer, hfits, -⟩ := takeAll_spec max buffer
  rw [← takeAll_wires_append hfits, ← List.append_assoc, ← hbuffer]

theorem takeAll_left (max : Nat) (buffer : Bytes) :
    takeAll max (takeAll max buffer).2 = ([], (takeAll max buffer).2) :=
  takeAll_of_no_frame (takeAll_spec max buffer).2.2

/-- The pieces in which a stream arrives make no difference. -/
theorem feed_eq_takeAll (h : takeAll max left = ([], left)) (pieces : List Bytes) :
    feed max left pieces = takeAll max (left ++ pieces.flatten) := by
  induction pieces generalizing left with
  | nil => rw [feed, List.flatten_nil, List.append_nil, h]
  | cons piece pieces ih =>
    have hrest := ih (takeAll_left max (left ++ piece))
    rw [feed, List.flatten_cons, ← List.append_assoc, takeAll_append max (left ++ piece), ← hrest]

/-! ## Decoding again and again -/

/-- Decoding takes these frames off a buffer, until it yields nothing or fails. -/
inductive Drains (max : Nat) : Bytes → List Bytes → Bytes → Prop
  | waits {buffer left : Bytes} (h : decode max buffer = (.ok none, left)) :
      Drains max buffer [] left
  | fails {buffer left : Bytes} {fault : Fault} (h : decode max buffer = (.error fault, left)) :
      Drains max buffer [] left
  | takes {buffer content rest left : Bytes} {frames : List Bytes}
      (h : decode max buffer = (.ok (some content), rest)) (hrest : Drains max rest frames left) :
      Drains max buffer (content :: frames) left

/-- Pieces arrive behind the bytes that are left over, and after each of them decoding goes on until
it yields nothing or fails. -/
inductive Feeds (max : Nat) : Bytes → List Bytes → List Bytes → Bytes → Prop
  | done {left : Bytes} : Feeds max left [] [] left
  | piece {left piece between last : Bytes} {pieces frames later : List Bytes}
      (h : Drains max (left ++ piece) frames between)
      (hrest : Feeds max between pieces later last) :
      Feeds max left (piece :: pieces) (frames ++ later) last

theorem drains_takeAll (max : Nat) (buffer : Bytes) :
    Drains max buffer (takeAll max buffer).1 (takeAll max buffer).2 := by
  induction hlength : buffer.length using Nat.strongRecOn generalizing buffer with
  | ind n ih =>
    cases hnext : next max buffer with
    | frame content rest =>
      rw [takeAll_of_frame hnext]
      exact .takes (by rw [decode, hnext]) (ih _ (hlength ▸ length_lt_of_next hnext) rest rfl)
    | incomplete =>
      rw [takeAll_of_no_frame (by simp [hnext])]
      exact .waits (by rw [decode, hnext])
    | oversize e =>
      rw [takeAll_of_no_frame (by simp [hnext])]
      exact .fails (by rw [decode, hnext])

theorem Drains.takeAll_eq (h : Drains max buffer frames left) :
    takeAll max buffer = (frames, left) := by
  induction h with
  | @waits buffer left h =>
    rw [decode] at h
    cases hnext : next max buffer with
    | incomplete =>
      rw [hnext] at h
      cases h
      exact takeAll_of_no_frame (by simp [hnext])
    | frame content rest => simp [hnext] at h
    | oversize e => simp [hnext] at h
  | @fails buffer left fault h =>
    rw [decode] at h
    cases hnext : next max buffer with
    | oversize e =>
      rw [hnext] at h
      cases h
      exact takeAll_of_no_frame (by simp [hnext])
    | frame content rest => simp [hnext] at h
    | incomplete => simp [hnext] at h
  | @takes buffer content rest left frames h _ ih =>
    rw [decode] at h
    cases hnext : next max buffer with
    | frame content' rest' =>
      rw [hnext] at h
      cases h
      rw [takeAll_of_frame hnext, ih]
    | incomplete => simp [hnext] at h
    | oversize e => simp [hnext] at h

theorem drains_iff : Drains max buffer frames left ↔ takeAll max buffer = (frames, left) := by
  refine ⟨Drains.takeAll_eq, fun h => ?_⟩
  have hdrains := drains_takeAll max buffer
  rwa [h] at hdrains

theorem feeds_iff {pieces : List Bytes} {last : Bytes} :
    Feeds max left pieces frames last ↔ feed max left pieces = (frames, last) := by
  induction pieces generalizing left frames with
  | nil =>
    rw [feed, Prod.mk.injEq]
    constructor
    · rintro ⟨⟩
      exact ⟨rfl, rfl⟩
    · rintro ⟨rfl, rfl⟩
      exact .done
  | cons piece pieces ih =>
    rw [feed, Prod.mk.injEq]
    constructor
    · rintro (_ | ⟨hdrains, hrest⟩)
      rw [drains_iff.1 hdrains, ih.1 hrest]
      exact ⟨rfl, rfl⟩
    · rintro ⟨rfl, rfl⟩
      exact .piece (drains_takeAll max _) (ih.2 rfl)

/-- Pieces from the start of a stream come to the same as the stream in one piece. -/
theorem feeds_nil_iff {pieces : List Bytes} :
    Feeds max [] pieces frames left ↔ Drains max pieces.flatten frames left := by
  rw [feeds_iff, drains_iff, feed_eq_takeAll (takeAll_nil max), List.nil_append]

/-! ## Exactness -/

theorem next_eq_incomplete_iff : next max buffer = .incomplete ↔
    buffer.length < lengthWidth ∨
      announced buffer ≤ max ∧ buffer.length < lengthWidth + announced buffer := by
  rw [next, announced]
  dsimp only
  by_cases hshort : buffer.length < lengthWidth
  · simp only [hshort, if_true, true_or]
  · rw [if_neg hshort, List.length_drop]
    by_cases hmax : max < Bytes.toNat (buffer.take lengthWidth)
    · simp only [hmax, if_true, hshort, Nat.not_le.2 hmax, false_and, or_false, reduceCtorEq]
    · rw [if_neg hmax]
      split
      · simp only [hshort, true_iff, false_or]
        omega
      · simp only [hshort, reduceCtorEq, false_iff, false_or]
        omega

/-- Where there is no whole frame, decoding waits for more, or fails whatever follows. -/
theorem decode_of_no_frame (h : ∀ content rest, next max left ≠ .frame content rest) :
    decode max left = (.ok none, left) ∧
        (left.length < lengthWidth ∨
          announced left ≤ max ∧ left.length < lengthWidth + announced left) ∨
      lengthWidth ≤ left.length ∧ max < announced left ∧ ∀ more, decode max (left ++ more) =
        (.error (.oversize ⟨announced left, max⟩), left ++ more) := by
  cases hnext : next max left with
  | frame content rest => exact absurd hnext (h content rest)
  | incomplete => exact .inl ⟨by rw [decode, hnext], next_eq_incomplete_iff.1 hnext⟩
  | oversize e =>
    obtain ⟨hlong, hmax, rfl⟩ := next_eq_oversize_iff.1 hnext
    refine .inr ⟨hlong, hmax, fun more => ?_⟩
    rw [decode, next_append_of_oversize hnext]
    rfl

/-- However a stream is cut into pieces, decoding after each piece takes the same frames off it as
decoding it in one piece, and leaves the same bytes. The stream is what sends the frames, and then
the bytes left over. These are too few for a length, or a part of a frame that may be sent, which
are kept until more arrives, or begin with a length above the maximum, and then decoding fails for
ever and takes nothing. Frames that have been encoded come out as they went in, with nothing left
over. -/
theorem framing_exact (max : Nat) (pieces : List Bytes) :
    (∃ frames left, Feeds max [] pieces frames left) ∧
    (∀ {frames : List Bytes} {left : Bytes}, Feeds max [] pieces frames left →
      Drains max pieces.flatten frames left ∧
      pieces.flatten = wires frames ++ left ∧ (∀ f ∈ frames, Fits max f) ∧
      (decode max left = (.ok none, left) ∧
          (left.length < lengthWidth ∨
            announced left ≤ max ∧ left.length < lengthWidth + announced left) ∨
        lengthWidth ≤ left.length ∧ max < announced left ∧ ∀ more, decode max (left ++ more) =
          (.error (.oversize ⟨announced left, max⟩), left ++ more))) ∧
    ∀ {frames : List Bytes}, (∀ f ∈ frames, Fits max f) →
      ∃ sent, frames.mapM (encode max) = .ok sent ∧
        (pieces.flatten = sent.flatten → ∀ taken left,
          Feeds max [] pieces taken left ↔ taken = frames ∧ left = []) := by
  refine ⟨⟨_, _, feeds_nil_iff.2 (drains_takeAll max _)⟩, ?_, ?_⟩
  · intro frames left hfeeds
    have hdrains := feeds_nil_iff.1 hfeeds
    obtain ⟨hstream, hfits, hlast⟩ := takeAll_spec max pieces.flatten
    rw [drains_iff.1 hdrains] at hstream hfits hlast
    exact ⟨hdrains, hstream, hfits, decode_of_no_frame hlast⟩
  · intro frames hfits
    refine ⟨_, mapM_eq_ok fun f hf => encode_eq_wire (hfits f hf).1, fun hsent taken left => ?_⟩
    have hall := takeAll_wires_append hfits []
    rw [takeAll_nil, List.append_nil, List.append_nil] at hall
    rw [feeds_nil_iff, drains_iff, hsent, ← List.flatMap_def, ← wires, hall, Prod.mk.injEq]
    exact and_congr eq_comm eq_comm

/-- A frame cut within its length and within its content, an empty frame, and the length of a frame
that is too large, with a byte behind it. -/
def jumbled : List Bytes := [[0, 0], [0, 3, 111], [110, 101, 0, 0, 0, 0, 0, 0], [0, 9, 7]]

/-- Two frames, encoded, cut elsewhere. -/
def intact : List Bytes := [[0, 0, 0, 3, 111, 110, 101, 0], [], [0, 0, 0]]

theorem framing_exact_cut_length :
    Feeds 5 [] jumbled [[111, 110, 101], []] [0, 0, 0, 9, 7] ∧
      Drains 5 jumbled.flatten [[111, 110, 101], []] [0, 0, 0, 9, 7] ∧
      (∀ f ∈ [[111, 110, 101], []], Fits 5 f) ∧ Feeds 5 [] intact [[111, 110, 101], []] [] := by
  have hjumbled : Feeds 5 [] jumbled [[111, 110, 101], []] [0, 0, 0, 9, 7] :=
    .piece (.waits (by cbv)) (.piece (.waits (by cbv))
      (.piece (.takes (by cbv) (.takes (by cbv) (.waits (by cbv))))
        (.piece (.fails (by cbv)) .done)))
  obtain ⟨-, hexact, -⟩ := framing_exact 5 jumbled
  obtain ⟨hdrains, -, hfits, -⟩ := hexact hjumbled
  obtain ⟨-, -, hencoded⟩ := framing_exact 5 intact
  obtain ⟨sent, hsent, hback⟩ := hencoded hfits
  obtain rfl := Except.ok.inj hsent
  exact ⟨hjumbled, hdrains, hfits, (hback rfl _ _).2 ⟨rfl, rfl⟩⟩

end Collective.Frame
