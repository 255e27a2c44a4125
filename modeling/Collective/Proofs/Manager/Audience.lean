import Collective.Manager.Audience
import Collective.Proofs.Link.Framing
import Collective.Proofs.Manager.Finality
import Collective.Proofs.Manager.Hearing
import Mathlib.Data.List.Induction

/-!
# Who is told of a message

The tables of a manager's observers say what its history says: `Audience.Mirrors` relates the two, and
every registration, every withdrawal and every other step keeps it as long as the manager is not
disposed of. So of a message from a source the observer bound to it last is told, and every observer
of all messages, unless its registration has been withdrawn.
-/

namespace Collective

/-! ## Withdrawals -/

namespace Observers

variable {ω : Type} (o : Observers ω)

theorem next_withdraw (r : Registration) : (o.withdraw r).next = o.next := by
  cases r with
  | bound source number =>
    rw [withdraw]
    split
    · split <;> rfl
    · rfl
  | everywhere number => rfl

theorem everywhere_withdraw_bound (source : Address) (number : Nat) :
    (o.withdraw (.bound source number)).everywhere = o.everywhere := by
  rw [withdraw]
  split
  · split <;> rfl
  · rfl

/-- Only the registration of this number leaves its source. -/
theorem get?_withdraw_bound (source other : Address) (number : Nat) :
    (o.withdraw (.bound source number)).bound.get? other =
      if source = other then (o.bound.get? other).filter (·.1 ≠ number) else o.bound.get? other := by
  cases hpresent : o.bound.get? source with
  | none =>
    simp only [withdraw, hpresent]
    split
    · next hsource => rw [← hsource, hpresent, Option.filter_none]
    · rfl
  | some row =>
    obtain ⟨present, observer⟩ := row
    simp only [withdraw, hpresent]
    by_cases hnumber : present = number
    · rw [if_pos hnumber, Table.get?_erase]
      split
      · next hsource => simp [← hsource, hpresent, Option.filter_some, hnumber]
      · rfl
    · rw [if_neg hnumber]
      split
      · next hsource => simp [← hsource, hpresent, Option.filter_some, hnumber]
      · rfl

end Observers

namespace Audience

variable {ω α : Type} {decode : Bytes → Except CodecError α} {a b : Audience ω α}
  {history : List (Event ω)} {source : Address} {observer : ω} {number : Nat} {e : Entry ω}

/-! ## Histories -/

@[simp] theorem registered_append (early late : List (Event ω)) :
    registered (early ++ late) = registered early ++ registered late := List.filterMap_append

@[simp] theorem withdrawn_append (early late : List (Event ω)) :
    withdrawn (early ++ late) = withdrawn early ++ withdrawn late := List.filterMap_append

/-- What a registration adds comes last. -/
theorem entries_append_of_registered {event : Event ω} {bound : Option Address}
    (h : registered [event] = [(bound, observer)]) :
    entries (history ++ [event]) =
      entries history ++ [⟨bound, observer, (registered history).length⟩] := by
  simp [entries, h, List.zipIdx_append]

/-- A registration is the latest of its source. -/
theorem latest?_append_of_registered {event : Event ω} {bound : Option Address}
    (h : registered [event] = [(bound, observer)]) (source : Address) :
    latest? (history ++ [event]) source =
      if bound = some source then some ⟨bound, observer, (registered history).length⟩
      else latest? history source := by
  rw [latest?, entries_append_of_registered h, List.filter_append, latest?]
  split
  · next hbound => rw [List.filter_cons_of_pos (by simpa using hbound), List.filter_nil,
      List.getLast?_concat]
  · next hbound => rw [List.filter_cons_of_neg (by simpa using hbound), List.filter_nil,
      List.append_nil]

theorem general_append_of_registered {event : Event ω} {bound : Option Address}
    (h : registered [event] = [(bound, observer)]) :
    general (history ++ [event]) = general history ++
      if bound = none then [⟨bound, observer, (registered history).length⟩] else [] := by
  rw [general, entries_append_of_registered h, List.filter_append, List.filter_singleton, general]
  simp

theorem entries_append_of_nil {event : Event ω} (h : registered [event] = []) :
    entries (history ++ [event]) = entries history := by
  simp [entries, h]

theorem getElem?_entries (history : List (Event ω)) (number : Nat) : (entries history)[number]? =
    (registered history)[number]?.map fun entry => ⟨entry.1, entry.2, number⟩ := by
  rw [entries, List.getElem?_map, List.getElem?_zipIdx, Option.map_map, Nat.zero_add]
  rfl

theorem length_entries (history : List (Event ω)) :
    (entries history).length = (registered history).length := by
  simp [entries]

theorem mem_entries : e ∈ entries history ↔
    (registered history)[e.number]? = some (e.source, e.observer) := by
  rw [entries, List.mem_map]
  constructor
  · rintro ⟨⟨⟨bound, observer⟩, number⟩, hmem, rfl⟩
    exact List.mem_zipIdx_iff_getElem?.1 hmem
  · intro h
    exact ⟨⟨(e.source, e.observer), e.number⟩, List.mem_zipIdx_iff_getElem?.2 h, rfl⟩

theorem mem_of_latest? (h : latest? history source = some e) :
    e ∈ entries history ∧ e.source = some source := by
  simpa using List.mem_of_getLast? h

theorem mem_general : e ∈ general history ↔ e ∈ entries history ∧ e.source = none := by
  simp [general]

theorem pairwise_entries (history : List (Event ω)) :
    (entries history).Pairwise fun early late => early.number < late.number := by
  have hnumbers : (entries history).map (·.number) = List.range (registered history).length := by
    rw [entries, List.map_map]
    exact (List.zipIdx_map_snd 0 _).trans List.range_eq_range'.symm
  have hrange := List.pairwise_lt_range (n := (registered history).length)
  rwa [← hnumbers, List.pairwise_map] at hrange

/-- No registration that binds to the source comes behind the latest one. -/
theorem number_le_of_latest? {late : Entry ω} (h : latest? history source = some late)
    (he : e ∈ entries history) (hsource : e.source = some source) : e.number ≤ late.number := by
  obtain ⟨front, hfront⟩ := List.getLast?_eq_some_iff.1 h
  have hmem : e ∈ front ++ [late] := hfront ▸ List.mem_filter.2 ⟨he, by simpa using hsource⟩
  have hpairwise := (pairwise_entries history).filter (·.source = some source)
  rw [hfront] at hpairwise
  rcases List.mem_append.1 hmem with hmem | hmem
  · exact Nat.le_of_lt ((List.pairwise_append.1 hpairwise).2.2 e hmem late List.mem_cons_self)
  · exact List.mem_singleton.1 hmem ▸ Nat.le_refl _

/-! ## Tables and histories -/

/-- The registration of an entry, as it is handed out. -/
def Entry.registration (e : Entry ω) : Registration :=
  match e.source with
  | some source => .bound source (e.number + 1)
  | none => .everywhere (e.number + 1)

/-- An entry as it stands in the tables. -/
def Entry.row (e : Entry ω) : Nat × ω := (e.number + 1, e.observer)

/-- The registration of an entry has not been withdrawn. -/
def standing (history : List (Event ω)) (e : Entry ω) : Bool := e.number ∉ withdrawn history

/-- The tables say what the history says. -/
structure Mirrors (history : List (Event ω)) (registrations : List Registration)
    (o : Observers ω) : Prop where
  registrations : registrations = (entries history).map (·.registration)
  next : o.next = (registered history).length + 1
  bound : ∀ source, (o.bound.get? source).toList =
    ((latest? history source).toList.filter (standing history)).map (·.row)
  everywhere : o.everywhere = ((general history).filter (standing history)).map (·.row)
  /-- Only what has been handed out has been withdrawn. -/
  withdrawn : ∀ number ∈ withdrawn history, number < (registered history).length

namespace Mirrors

variable {registrations : List Registration} {o : Observers ω}

theorem empty : Mirrors ([] : List (Event ω)) [] .empty where
  registrations := rfl
  next := rfl
  bound _ := rfl
  everywhere := rfl
  withdrawn := nofun

/-- What a registration changes, whatever it is. -/
theorem given (h : Mirrors history registrations o) {event : Event ω} {bound : Option Address}
    (hregistered : registered [event] = [(bound, observer)])
    (hwithdrawn : Audience.withdrawn [event] = []) :
    standing (history ++ [event]) = standing history ∧
      standing history ⟨bound, observer, (registered history).length⟩ = true ∧
      o.next + 1 = (registered (history ++ [event])).length + 1 ∧
      ∀ number ∈ Audience.withdrawn (history ++ [event]),
        number < (registered (history ++ [event])).length := by
  have hfresh := fun hmem => Nat.lt_irrefl _ (h.withdrawn _ hmem)
  refine ⟨?_, by simpa [standing] using hfresh, by simp [hregistered, h.next], ?_⟩
  · funext e
    simp [standing, hwithdrawn]
  · intro number hnumber
    rw [withdrawn_append, hwithdrawn, List.append_nil] at hnumber
    simpa [hregistered] using Nat.lt_succ_of_lt (h.withdrawn number hnumber)

theorem observe (h : Mirrors history registrations o) (source : Address) (observer : ω) :
    Mirrors (history ++ [.observe source observer])
      (registrations ++ [(o.observe source observer).2]) (o.observe source observer).1 := by
  have hregistered : registered [.observe source observer] = [(some source, observer)] := rfl
  obtain ⟨hstanding, hnew, hnext, hwithdrawn⟩ := h.given hregistered rfl
  refine ⟨?_, hnext, fun other => ?_, ?_, hwithdrawn⟩
  · rw [entries_append_of_registered hregistered, List.map_append, h.registrations,
      Observers.observe, h.next]
    rfl
  · rw [Observers.observe, Table.get?_insert, hstanding, latest?_append_of_registered hregistered]
    by_cases hsource : source = other
    · rw [if_pos hsource, if_pos (congrArg some hsource), Option.toList_some, Option.toList_some,
        List.filter_cons_of_pos hnew, h.next]
      rfl
    · rw [if_neg hsource, if_neg fun heq => hsource (Option.some.inj heq), h.bound]
  · rw [Observers.observe, hstanding, general_append_of_registered hregistered,
      if_neg (Option.some_ne_none source), List.append_nil, h.everywhere]

theorem observeAll (h : Mirrors history registrations o) (observer : ω) :
    Mirrors (history ++ [.observeAll observer]) (registrations ++ [(o.observeAll observer).2])
      (o.observeAll observer).1 := by
  have hregistered : registered [.observeAll observer] = [(none, observer)] := rfl
  obtain ⟨hstanding, hnew, hnext, hwithdrawn⟩ := h.given hregistered rfl
  refine ⟨?_, hnext, fun other => ?_, ?_, hwithdrawn⟩
  · rw [entries_append_of_registered hregistered, List.map_append, h.registrations,
      Observers.observeAll, h.next]
    rfl
  · rw [Observers.observeAll, hstanding, latest?_append_of_registered hregistered,
      if_neg (Option.some_ne_none other).symm, h.bound]
  · rw [Observers.observeAll, hstanding, general_append_of_registered hregistered, if_pos rfl,
      List.filter_append, List.filter_cons_of_pos hnew, List.filter_nil, List.map_append,
      h.everywhere, h.next]
    rfl

/-- The work of the manager leaves the tables alone. -/
theorem work (h : Mirrors history registrations o) (event : Activity.Event) :
    Mirrors (history ++ [.work event]) registrations o := by
  have hentries : entries (history ++ [.work event]) = entries history :=
    entries_append_of_nil rfl
  have hregistered : registered (history ++ [.work event]) = registered history := by
    rw [registered_append]
    exact List.append_nil _
  have hwithdrawn : Audience.withdrawn (history ++ [.work event]) = Audience.withdrawn history := by
    rw [withdrawn_append]
    exact List.append_nil _
  have hstanding : standing (history ++ [.work event]) = standing history := by
    funext e
    rw [standing, hwithdrawn, standing]
  refine ⟨?_, ?_, fun source => ?_, ?_, ?_⟩
  · rw [hentries, h.registrations]
  · rw [hregistered, h.next]
  · rw [latest?, hentries, hstanding, ← latest?, h.bound]
  · rw [general, hentries, hstanding, ← general, h.everywhere]
  · rw [hwithdrawn, hregistered]
    exact h.withdrawn

/-- A table keeps all entries but that of the registration withdrawn. -/
theorem map_row_filter_standing (l : List (Entry ω)) (number : Nat) :
    (l.filter (standing (history ++ [.withdraw number]))).map (·.row) =
      ((l.filter (standing history)).map (·.row)).filter (·.1 ≠ number + 1) := by
  rw [List.filter_map, List.filter_filter]
  congr 2
  funext e
  simp [standing, Audience.withdrawn, Entry.row, and_comm]

/-- It keeps all of them if that one is in the other table. -/
theorem map_row_filter_standing_of_ne {l : List (Entry ω)} {number : Nat}
    (h : ∀ e ∈ l, e.number ≠ number) :
    (l.filter (standing (history ++ [.withdraw number]))).map (·.row) =
      (l.filter (standing history)).map (·.row) := by
  rw [map_row_filter_standing, List.filter_eq_self]
  intro row hrow
  obtain ⟨e, he, rfl⟩ := List.mem_map.1 hrow
  simpa [Entry.row] using h e (List.mem_filter.1 he).1

theorem withdraw (h : Mirrors history registrations o) {number : Nat} {r : Registration}
    (hr : registrations[number]? = some r) :
    Mirrors (history ++ [.withdraw number]) registrations (o.withdraw r) := by
  have hentries : entries (history ++ [.withdraw number]) = entries history :=
    entries_append_of_nil rfl
  have hregistered : registered (history ++ [.withdraw number]) = registered history := by
    rw [registered_append]
    exact List.append_nil _
  have hwithdrawn : ∀ other ∈ Audience.withdrawn (history ++ [.withdraw number]),
      other < (registered history).length := by
    intro other hother
    rw [withdrawn_append] at hother
    rcases List.mem_append.1 hother with hother | hother
    · exact h.withdrawn other hother
    · obtain rfl : other = number := List.mem_singleton.1 hother
      have hlt := (List.getElem?_eq_some_iff.1 hr).1
      rwa [h.registrations, List.length_map, length_entries] at hlt
  rw [h.registrations, List.getElem?_map, getElem?_entries] at hr
  obtain ⟨e, he, rfl⟩ := Option.map_eq_some_iff.1 hr
  obtain ⟨⟨bound, observer⟩, hentry, rfl⟩ := Option.map_eq_some_iff.1 he
  -- in a table of other entries this number does not stand
  have hother {e : Entry ω} (hmem : e ∈ entries history) (hne : e.source ≠ bound) :
      e.number ≠ number := by
    rintro rfl
    exact hne (Prod.mk.inj (Option.some.inj ((mem_entries.1 hmem).symm.trans hentry))).1
  have hlatest {source : Address} (hne : some source ≠ bound) :
      ∀ e ∈ (latest? history source).toList, e.number ≠ number := by
    intro e he
    obtain ⟨hmem, hsource⟩ := mem_of_latest? (Option.mem_toList.1 he)
    exact hother hmem (hsource ▸ hne)
  refine ⟨by rw [hentries, h.registrations], by rw [hregistered, Observers.next_withdraw, h.next],
    fun source => ?_, ?_, hregistered ▸ hwithdrawn⟩
  · rw [latest?, hentries, ← latest?]
    cases bound with
    | none =>
      have hkept := hlatest (Option.some_ne_none source)
      exact (h.bound source).trans (map_row_filter_standing_of_ne hkept).symm
    | some bound =>
      rw [Entry.registration, Observers.get?_withdraw_bound]
      split
      · next hsource =>
        rw [Option.toList_filter, hsource, h.bound, map_row_filter_standing]
      · next hne =>
        rw [h.bound, map_row_filter_standing_of_ne (hlatest fun heq => hne (Option.some.inj heq).symm)]
  · rw [general, hentries, ← general]
    cases bound with
    | none =>
      rw [map_row_filter_standing, ← h.everywhere]
      rfl
    | some bound =>
      rw [Entry.registration, Observers.everywhere_withdraw_bound, h.everywhere,
        map_row_filter_standing_of_ne]
      intro e he
      obtain ⟨hmem, hsource⟩ := mem_general.1 he
      exact hother hmem (hsource ▸ (Option.some_ne_none bound).symm)

end Mirrors

/-! ## Runs -/

/-- Disposals that have begun have marked the manager, and as long as it is not marked its tables say
what the history says. -/
structure Faithful (history : List (Event ω)) (a : Audience ω α) : Prop where
  marked : a.activity.Marked
  mirrors : a.manager.disposed = false → Mirrors history a.registrations a.manager.observers

theorem faithful_new (home : Option Address) (maxFrame : Nat) :
    (new home maxFrame : Audience ω α).Faithful [] := ⟨nofun, fun _ => .empty⟩

/-- The step lemma. -/
theorem Faithful.step (h : a.Faithful history) {event : Event ω}
    (hstep : a.step? decode event = some b) : b.Faithful (history ++ [event]) := by
  cases event with
  | observe source observer =>
    cases hstep
    exact ⟨h.marked, fun hlive => (h.mirrors hlive).observe source observer⟩
  | observeAll observer =>
    cases hstep
    exact ⟨h.marked, fun hlive => (h.mirrors hlive).observeAll observer⟩
  | withdraw number =>
    obtain ⟨r, hr, rfl⟩ := Option.map_eq_some_iff.1 hstep
    exact ⟨h.marked, fun hlive => (h.mirrors hlive).withdraw hr⟩
  | work event =>
    obtain ⟨activity, hwork, rfl⟩ := Option.map_eq_some_iff.1 hstep
    refine ⟨h.marked.step hwork, fun hlive => ?_⟩
    have hbefore : a.manager.disposed = false := by
      cases hdisposed : a.manager.disposed with
      | false => rfl
      | true => exact ((Activity.succeeds_of_step? hwork).disposed hdisposed).symm.trans hlive
    -- a disposal that drops the observers would have marked the manager
    have hsilence : .silence ∉ a.activity.disposals := fun hmem => by
      have hdisposed := h.marked _ hmem nofun
      rw [manager, hdisposed] at hbefore
      cases hbefore
    have hsame := (Activity.alike_of_step? hwork).2 hsilence
    have hmirrors := (h.mirrors hbefore).work event
    rwa [manager, ← hsame] at hmirrors

theorem Faithful.run {home : Option Address} {maxFrame : Nat}
    (hrun : (new home maxFrame).run? decode history = some a) : a.Faithful history := by
  induction history using List.reverseRecOn generalizing a with
  | nil =>
    cases hrun
    exact faithful_new home maxFrame
  | append_singleton history event ih =>
    rw [run?, List.foldlM_append] at hrun
    obtain ⟨b, hb, hlast⟩ := Option.bind_eq_some_iff.1 hrun
    have hstep : b.step? decode event = some a := by simpa using hlast
    exact (ih hb).step hstep

/-! ## Who is told -/

theorem Mirrors.dispatch_eq {registrations : List Registration} {m : Manager ω}
    (h : Mirrors history registrations m.observers) (source : Address) (message : α) :
    m.dispatch source message = (hearing history source).map (·.notice source message) := by
  have hbound : (m.observers.boundTo source).toList =
      ((latest? history source).toList.filter (standing history)).map (·.observer) := by
    rw [Observers.boundTo, Option.toList_map, h.bound, List.map_map]
    rfl
  rw [Manager.dispatch, hbound, h.everywhere, hearing, List.filter_append,
    List.map_append, List.map_map, List.map_map]
  congr 1
  · refine List.map_congr_left fun e he => ?_
    obtain ⟨-, hsource⟩ := mem_of_latest? (Option.mem_toList.1 (List.mem_filter.1 he).1)
    simp [Entry.notice, hsource]
  · refine List.map_congr_left fun e he => ?_
    obtain ⟨-, hsource⟩ := mem_general.1 (List.mem_filter.1 he).1
    simp [Entry.notice, Entry.row, hsource]

/-- Withdrawing a registration leaves out just this one, whoever sends a message. -/
theorem hearing_append_withdraw (history : List (Event ω)) (number : Nat) (source : Address) :
    hearing (history ++ [.withdraw number]) source =
      (hearing history source).filter (·.number ≠ number) := by
  have hentries : entries (history ++ [.withdraw number]) = entries history :=
    entries_append_of_nil rfl
  rw [hearing, latest?, general, hentries, ← latest?, ← general, hearing, List.filter_filter]
  congr 1
  funext e
  simp [Audience.withdrawn, and_comm]

/-- A registration that has been replaced is in no table any more. -/
theorem Mirrors.withdraw_replaced {registrations : List Registration} {o : Observers ω}
    (h : Mirrors history registrations o) {number later : Nat} {source : Address} {first second : ω}
    (hnumber : (registered history)[number]? = some (some source, first))
    (hlater : (registered history)[later]? = some (some source, second)) (hlt : number < later) :
    ∃ r, registrations[number]? = some r ∧ o.withdraw r = o := by
  refine ⟨.bound source (number + 1), ?_, ?_⟩
  · rw [h.registrations, List.getElem?_map, getElem?_entries, hnumber]
    rfl
  rw [Observers.withdraw]
  split
  · next present observer hpresent =>
    have hbound := h.bound source
    rw [hpresent, Option.toList_some] at hbound
    have hrow : (present, observer) ∈ [(present, observer)] := List.mem_cons_self
    rw [hbound] at hrow
    obtain ⟨e, he, hrow⟩ := List.mem_map.1 hrow
    have hlatest := Option.mem_toList.1 (List.mem_filter.1 he).1
    have hle : later ≤ e.number :=
      number_le_of_latest? hlatest (e := ⟨some source, second, later⟩) (mem_entries.2 hlater) rfl
    have hpresent : e.number + 1 = present := (Prod.mk.inj hrow).1
    rw [if_neg (by omega)]
  · rfl

/-- A manager is at work, and observers are registered with it and withdrawn in between, in any
order and any number of times. As long as it has not been disposed of, a message from a source is
told to the observer of the latest registration that binds one to the source, unless this has been
withdrawn, and then to every observer of all messages whose registration has not been withdrawn, in
the order in which they were registered. A read loop that comes to a message over an open link tells
it to just these. Withdrawing a registration leaves it out and no other; and one that has been
replaced leaves everything as it is. -/
theorem told_by_registrations {home : Option Address} {maxFrame : Nat}
    (hrun : (new home maxFrame).run? decode history = some a)
    (hlive : a.manager.disposed = false) :
    (∀ (source : Address) (message : α), a.manager.dispatch source message =
      (hearing history source).map (·.notice source message)) ∧
    (∀ {reader : Nat} {r : Reader} {content : Bytes} {rest : Inlet} {message : α},
      a.activity.readers[reader]? = some r → r.reading = .next →
      (a.manager.link? r.link).any (·.closed) = false →
      r.inlet.offer? a.manager.maxFrame = some (.frame content, rest) →
      decode content = .ok message →
      ∃ b, a.step? decode (.work (.read reader)) = some b ∧ b.activity.notices =
        a.activity.notices ++ (hearing history r.source).map (·.notice r.source message)) ∧
    (∀ number < (registered history).length, ∃ b, a.step? decode (.withdraw number) = some b ∧
      ∀ (source : Address) (message : α), b.manager.dispatch source message =
        ((hearing history source).filter (·.number ≠ number)).map (·.notice source message)) ∧
    ∀ {number later : Nat} {source : Address} {first second : ω},
      (registered history)[number]? = some (some source, first) →
      (registered history)[later]? = some (some source, second) → number < later →
      a.step? decode (.withdraw number) = some a := by
  have hmirrors := (Faithful.run hrun).mirrors hlive
  refine ⟨hmirrors.dispatch_eq, ?_, fun number hnumber => ?_, ?_⟩
  · intro reader r content rest message hr hreading hopen hoffer hdecode
    have hstep : r.reading.step? decode r.source r.link
        ((r.inlet.offer? a.manager.maxFrame).map (·.1)) a.manager =
          some ⟨a.manager, .next, a.manager.dispatch r.source message, true⟩ := by
      simp [hreading, Reading.step?, hopen, hoffer, hdecode]
    have hread : a.step? decode (.work (.read reader)) = some _ :=
      congrArg (Option.map _) (Activity.read?_of_step? hr hstep)
    exact ⟨_, hread, congrArg (a.activity.notices ++ ·) (hmirrors.dispatch_eq r.source message)⟩
  · have hlt : number < a.registrations.length := by
      rwa [hmirrors.registrations, List.length_map, length_entries]
    have hr := List.getElem?_eq_getElem hlt
    refine ⟨_, by rw [step?, hr, Option.map_some], fun source message => ?_⟩
    rw [← hearing_append_withdraw]
    exact (hmirrors.withdraw hr).dispatch_eq source message
  · intro number later source first second hnumber hlater hlt
    obtain ⟨r, hr, hsame⟩ := hmirrors.withdraw_replaced hnumber hlater hlt
    rw [step?, hr, Option.map_some, hsame]
    rfl

/-! ## One observer in the place of another -/

namespace Turnover

/-- The peer's end of the connection. -/
def peer : Address := .v4 ⟨10, 0, 0, 2⟩ 49152

/-- Where the peer listens. -/
def home : Address := .v4 ⟨10, 0, 0, 2⟩ 7000

/-- Observer 2 takes the place of observer 1, and only then is the registration of observer 1
withdrawn. Observer 3 hears of all messages by two registrations, of which the first is withdrawn.
In the meantime a message arrives. -/
def turnover : List (Event Nat) :=
  [.observe home 1, .observeAll 3, .observe home 2, .observeAll 3, .withdraw 1,
    .work (.connect peer),
    .work (.arrive 0 (Frame.wire (Handshake.ofHome (some home)).print ++ [0, 0, 0, 1, 7])),
    .work (.greet 0 .none false), .withdraw 0, .work (.adopt 0), .work (.adopt 0)]

def start : Audience Nat Bytes := new (some peer) 64

def present : Audience Nat Bytes := (start.run? .ok turnover).get (by decide +kernel)

/-- Observers 2 and 3 hear of the message, each of them once. Without the registration of observer 2
only observer 3 hears of another one, and withdrawing that of observer 1 again does nothing. -/
theorem told_by_registrations_replaced :
    (∃ b, present.step? .ok (.work (.read 0)) = some b ∧
      b.activity.notices = [(2, .value [7]), (3, .message home [7])]) ∧
    (∃ b, present.step? .ok (.withdraw 2) = some b ∧
      b.manager.dispatch home ([8] : Bytes) = [(3, .message home [8])]) ∧
    present.step? .ok (.withdraw 0) = some present := by
  have hrun : start.run? .ok turnover = some present := (Option.some_get _).symm
  obtain ⟨-, hread, hwithdraw, hreplaced⟩ := told_by_registrations hrun (by decide +kernel)
  have hearing_home : hearing turnover home = [⟨some home, 2, 2⟩, ⟨none, 3, 3⟩] := by
    decide +kernel
  have hreader : present.activity.readers[0]? =
      some ⟨0, home, ⟨[0, 0, 0, 1, 7], false⟩, .next⟩ := by decide +kernel
  have hopen : (present.manager.link? 0).any (·.closed) = false := by decide +kernel
  have hmax : present.manager.maxFrame = 64 := by decide +kernel
  have hoffer : Inlet.offer? 64 ⟨[0, 0, 0, 1, 7], false⟩ = some (.frame [7], ⟨[], false⟩) := by
    decide +kernel
  have hnotices : present.activity.notices.length = 0 := by decide +kernel
  refine ⟨?_, ?_, hreplaced (by rfl) (by rfl) (by decide : 0 < 2)⟩
  · obtain ⟨b, hb, htold⟩ := hread hreader rfl hopen (hmax ▸ hoffer) rfl
    rw [List.length_eq_zero_iff.1 hnotices, hearing_home] at htold
    exact ⟨b, hb, htold⟩
  · obtain ⟨b, hb, htold⟩ := hwithdraw 2 (by decide)
    exact ⟨b, hb, by rw [htold, hearing_home]; rfl⟩

end Turnover

end Audience

end Collective
