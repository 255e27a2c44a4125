import Collective.Manager.Activity
import Collective.Proofs.Manager.Cache

/-!
# Steps on a manager

Calls that ask for a link to the same destination share the cell in which they find it. A call may
hold on to a cell that the cache has long forgotten, so each has its own predicate `Fits` that says
what it may still rely on. For every kind of step there is one lemma: what the step leaves behind
is `Manager.Kept`, its owner still fits, and the manager evolves as far as the others can tell.
-/

namespace Collective

/-! ## One call for a link -/

namespace Dial

variable {ω : Type} {m n : Manager ω} {owners more : List Address} {destination : Address}
  {d e : Dial}

/-- The cell for which a call is opening a connection. -/
def cell? : Dial → Option Nat
  | .connect _ cell => some cell
  | .store _ cell _ => some cell
  | _ => none

/-- The way of the connection that a call has just opened. -/
def made (destination : Address) : Dial → List (Bool × Address)
  | .store _ _ _ => [(true, destination)]
  | _ => []

/-- What a call has found out is so. -/
def Fits (owners : List Address) (m : Manager ω) (destination : Address) : Dial → Prop
  | .wait _ cell => owners[cell]? = some destination
  | .connect _ cell => owners[cell]? = some destination ∧ m.cells[cell]? = some .opening
  | .store _ cell link => owners[cell]? = some destination ∧ m.cells[cell]? = some .opening ∧
      ∃ c, m.connections[link]? = some c ∧ c.link.remote = destination
  | .inspect _ link => ∃ c, m.connections[link]? = some c
  | .evict _ link => m.Shut link
  | .check _ | .look _ | .answered _ => True

theorem Fits.owner {cell : Nat} (h : d.Fits owners m destination) (hcell : d.cell? = some cell) :
    owners[cell]? = some destination ∧ m.cells[cell]? = some .opening := by
  cases d with
  | connect tries other =>
    obtain rfl := Option.some.inj hcell
    exact h
  | store tries other link =>
    obtain rfl := Option.some.inj hcell
    exact ⟨h.1, h.2.1⟩
  | _ => cases hcell

theorem getElem?_append_of_eq_some {cell : Nat} {owner : Address}
    (h : owners[cell]? = some owner) : (owners ++ more)[cell]? = some owner := by
  rw [List.getElem?_append_left (List.getElem?_eq_some_iff.1 h).1, h]

/-- What a call has found out stays so, if nobody else gets at its cell. -/
theorem Fits.persist (h : d.Fits owners m destination) (hn : m.Persists n)
    (hopening : ∀ cell, d.cell? = some cell → m.cells[cell]? = some .opening →
      n.cells[cell]? = some .opening) : d.Fits (owners ++ more) n destination := by
  cases d with
  | check tries => trivial
  | look tries => trivial
  | wait tries cell => exact getElem?_append_of_eq_some h
  | connect tries cell => exact ⟨getElem?_append_of_eq_some h.1, hopening cell rfl h.2⟩
  | store tries cell link =>
    obtain ⟨howner, hcell, c, hc, hremote⟩ := h
    obtain ⟨d, hd, hcontinues⟩ := hn.connection hc
    exact ⟨getElem?_append_of_eq_some howner, hopening cell rfl hcell, d, hd,
      hcontinues.link.remote_eq.trans hremote⟩
  | inspect tries link =>
    obtain ⟨c, hc⟩ := h
    obtain ⟨d, hd, -⟩ := hn.connection hc
    exact ⟨d, hd⟩
  | evict tries link => exact hn.shut h
  | answered result => trivial

/-- What a step of a call does: it changes no cell but the one for which it opens a connection, and
begins to do so only in an empty cell. -/
structure Moves (owners : List Address) (m n : Manager ω) (destination : Address) (d e : Dial) :
    Prop where
  kept : n.Kept owners
  fits : e.Fits owners n destination
  evolves : m.Evolves (d.cell? = some ·) (e.made destination) n
  claimed : ∀ {cell : Nat}, e.cell? = some cell →
    d.cell? = some cell ∨ m.cells[cell]? = some .empty
  connected : ∀ {tries cell link : Nat}, e = .store tries cell link →
    link = m.connections.length ∧ d = .connect tries cell
  stored : ∀ {tries cell link : Nat}, d = .store tries cell link →
    n.cells[cell]? = some (.full link)
  disposed : n.disposed = m.disposed

/-- A step that opens no connection and keeps no cell. -/
theorem Moves.of_evolves (hn : n.Kept owners) (he : e.Fits owners n destination)
    (hevolves : m.Evolves (fun _ => False) [] n) (hd : d.cell? = none) (hcell : e.cell? = none)
    (hdisposed : n.disposed = m.disposed) : Moves owners m n destination d e where
  kept := hn
  fits := he
  evolves := by
    have hmade : e.made destination = [] := by
      cases e with
      | store tries cell link => cases hcell
      | _ => rfl
    rw [hmade]
    exact hevolves.mono fun _ _ => False.elim
  claimed h := by
    rw [hcell] at h
    cases h
  connected h := by
    rw [h] at hcell
    cases hcell
  stored h := by
    rw [h] at hd
    cases hd
  disposed := hdisposed

/-- A step by which a call fills, empties or claims a cell. -/
theorem moves_of_setCell {cell : Nat} {content : Cell} (h : m.Kept owners)
    (hcell : ∀ number, m.cells[cell]? ≠ some (.full number))
    (hcontent : ∀ number, content = .full number →
      ∃ c, m.connections[number]? = some c ∧ owners[cell]? = some c.link.remote)
    (hfree : m.cells[cell]? = some .opening → d.cell? = some cell)
    (he : e.Fits owners (m.setCell cell content) destination)
    (hmade : ∀ tries cell link, e ≠ .store tries cell link)
    (hclaimed : ∀ other, e.cell? = some other → m.cells[other]? = some .empty)
    (hstored : ∀ tries other link, d = .store tries other link →
      (m.setCell cell content).cells[other]? = some (.full link)) :
    Moves owners m (m.setCell cell content) destination d e where
  kept := (h.setCell hcell hcontent).1
  fits := he
  evolves := by
    have hnone : e.made destination = [] := by
      cases e with
      | store tries cell link => exact absurd rfl (hmade tries cell link)
      | _ => rfl
    rw [hnone]
    refine (h.setCell hcell hcontent).2.mono ?_
    rintro other hopening rfl
    exact hfree hopening
  claimed hother := .inr (hclaimed _ hother)
  connected hstore := absurd hstore (hmade _ _ _)
  stored := hstored _ _ _
  disposed := rfl

theorem cells_setCell {cell : Nat} {old content : Cell} (h : m.cells[cell]? = some old) :
    (m.setCell cell content).cells[cell]? = some content :=
  List.getElem?_set_self (List.getElem?_eq_some_iff.1 h).1

theorem moves_of_step? {reach : Except TransportError Unit} (h : m.Kept owners)
    (hfits : d.Fits owners m destination) (hstep : d.step? reach destination m = some (n, e)) :
    ∃ more, Moves (owners ++ more) m n destination d e := by
  cases d with
  | check tries =>
    refine ⟨[], ?_⟩
    rw [List.append_nil]
    cases tries with
    | zero =>
      cases hstep
      exact .of_evolves h trivial (.refl _ m) rfl rfl rfl
    | succ tries =>
      rw [step?] at hstep
      split at hstep <;> cases hstep <;> exact .of_evolves h trivial (.refl _ m) rfl rfl rfl
  | look tries =>
    cases hstep
    obtain ⟨more, hkept, howner, hevolves⟩ := h.cellOf destination
    exact ⟨more, .of_evolves hkept howner hevolves rfl rfl (m.disposed_cellOf destination)⟩
  | wait tries cell =>
    refine ⟨[], ?_⟩
    rw [List.append_nil]
    rw [step?] at hstep
    split at hstep
    · next hempty =>
      cases hstep
      refine moves_of_setCell h (by simp [hempty]) (by simp) (by simp [hempty])
        ⟨hfits, cells_setCell hempty⟩ (by simp) ?_ (by simp)
      intro other hother
      obtain rfl := Option.some.inj hother
      exact hempty
    · next link hfull =>
      cases hstep
      obtain ⟨c, hc, -⟩ := h.full hfull
      exact .of_evolves h ⟨c, hc⟩ (.refl _ m) rfl rfl rfl
    · cases hstep
  | connect tries cell =>
    refine ⟨[], ?_⟩
    rw [List.append_nil]
    rw [step?] at hstep
    split at hstep
    · cases hstep
      exact moves_of_setCell h (by simp [hfits.2]) (by simp) (fun _ => rfl) trivial (by simp)
        (by simp [cell?]) (by simp)
    · next link _ hopened =>
      cases hstep
      have hremote : link.remote = destination := by
        obtain ⟨_, hopen⟩ : ∃ u, Link.opened destination m.home m.maxFrame = .ok u ∧
            u.1 = link := by
          cases reach with
          | error e => cases hopened
          | ok _ => exact ⟨_, hopened, rfl⟩
        obtain ⟨hopen, rfl⟩ := hopen
        rw [Link.opened] at hopen
        split at hopen <;> cases hopen
        rfl
      obtain ⟨hkept, hevolves⟩ := h.addLink link true
      refine ⟨hkept, ⟨hfits.1, hfits.2, ?_⟩, ?_, ?_, ?_, by simp, rfl⟩
      · refine ⟨_, List.getElem?_concat_length, ?_⟩
        dsimp only
        split <;> exact hremote
      · rw [← hremote]
        exact hevolves.mono fun _ _ => False.elim
      · exact fun hother => .inl hother
      · rintro _ _ _ ⟨⟩
        exact ⟨rfl, rfl⟩
  | store tries cell link =>
    refine ⟨[], ?_⟩
    rw [List.append_nil]
    cases hstep
    obtain ⟨howner, hopening, c, hc, hremote⟩ := hfits
    refine moves_of_setCell h (by simp [hopening]) ?_ (fun _ => rfl) ⟨c, hc⟩ (by simp)
      (by simp [cell?]) ?_
    · rintro _ ⟨⟩
      exact ⟨c, hc, by rw [howner, hremote]⟩
    · rintro _ _ _ ⟨⟩
      exact cells_setCell hopening
  | inspect tries link =>
    refine ⟨[], ?_⟩
    rw [List.append_nil]
    obtain ⟨c, hc⟩ := hfits
    rw [step?, Option.some.injEq, Prod.mk.injEq] at hstep
    obtain ⟨rfl, rfl⟩ := hstep
    split
    · exact .of_evolves h trivial (.refl _ m) rfl rfl rfl
    · next hclosed =>
      have hshut := Manager.shut_of_isOpen hc (by simpa using hclosed)
      exact .of_evolves h hshut (.refl _ m) rfl rfl rfl
  | evict tries link =>
    refine ⟨[], ?_⟩
    rw [List.append_nil]
    cases hstep
    obtain ⟨hkept, hevolves⟩ := h.evict destination hfits
    exact .of_evolves hkept trivial hevolves rfl rfl (m.disposed_evict destination link)
  | answered result => cases hstep

end Dial

/-! ## Accepted connections, read loops and disposals -/

section

variable {ω : Type} {m n : Manager ω} {owners more : List Address} {source : Address}

/-- What taking over a connection has found out is so. -/
def Adoption.Fits (owners : List Address) (m : Manager ω) (source : Address) : Adoption → Prop
  | .look link => ∃ c, m.connections[link]? = some c ∧ c.link.remote = source
  | .store link cell => owners[cell]? = some source ∧
      ∃ c, m.connections[link]? = some c ∧ c.link.remote = source
  | .done => True

theorem Adoption.Fits.persist {x : Adoption} (h : x.Fits owners m source) (hn : m.Persists n) :
    x.Fits (owners ++ more) n source := by
  cases x with
  | look link =>
    obtain ⟨c, hc, hremote⟩ := h
    obtain ⟨d, hd, hcontinues⟩ := hn.connection hc
    exact ⟨d, hd, hcontinues.link.remote_eq.trans hremote⟩
  | store link cell =>
    obtain ⟨howner, c, hc, hremote⟩ := h
    obtain ⟨d, hd, hcontinues⟩ := hn.connection hc
    exact ⟨Dial.getElem?_append_of_eq_some howner, d, hd,
      hcontinues.link.remote_eq.trans hremote⟩
  | done => trivial

/-- A connection that is taken over goes only into an empty cell. -/
theorem Adoption.evolves_of_step? {x y : Adoption} (h : m.Kept owners)
    (hfits : x.Fits owners m source) (hstep : x.step? source m = some (n, y)) :
    ∃ more, n.Kept (owners ++ more) ∧ y.Fits (owners ++ more) n source ∧
      m.Evolves (fun _ => False) [] n ∧ n.disposed = m.disposed := by
  cases x with
  | look link =>
    cases hstep
    obtain ⟨more, hkept, howner, hevolves⟩ := h.cellOf source
    obtain ⟨c, hc, hremote⟩ := hfits
    obtain ⟨d, hd, hcontinues⟩ := hevolves.connection hc
    exact ⟨more, hkept, ⟨howner, d, hd, hcontinues.link.remote_eq.trans hremote⟩, hevolves,
      m.disposed_cellOf source⟩
  | store link cell =>
    refine ⟨[], ?_⟩
    rw [List.append_nil]
    cases hstep
    obtain ⟨howner, c, hc, hremote⟩ := hfits
    split
    · next hempty =>
      have hlink : ∀ number, Cell.full link = .full number →
          ∃ c, m.connections[number]? = some c ∧ owners[cell]? = some c.link.remote := by
        rintro _ ⟨⟩
        exact ⟨c, hc, by rw [howner, hremote]⟩
      obtain ⟨hkept, hevolves⟩ := h.setCell (by simp [hempty]) hlink
      refine ⟨hkept, trivial, hevolves.mono ?_, rfl⟩
      rintro other hopening rfl
      rw [hempty] at hopening
      cases hopening
    · exact ⟨h, trivial, .refl _ m, rfl⟩
  | done => cases hstep

/-- The link of a read loop is there, and closed before the loop evicts it. -/
structure Reader.Fits (m : Manager ω) (r : Reader) : Prop where
  exists_link : ∃ c, m.connections[r.link]? = some c
  shut : r.reading = .evict → m.Shut r.link

theorem Reader.Fits.persist {r : Reader} (h : r.Fits m) (hn : m.Persists n) : r.Fits n where
  exists_link := by
    obtain ⟨c, hc⟩ := h.exists_link
    obtain ⟨d, hd, -⟩ := hn.connection hc
    exact ⟨d, hd⟩
  shut hevict := hn.shut (h.shut hevict)

theorem Manager.Kept.closeLink (h : m.Kept owners) (number : Nat) :
    (m.closeLink number).Kept owners ∧
      m.Evolves (fun _ => False) [] (m.closeLink number) :=
  h.modifyLink fun l _ => l.continues_close

/-- A read loop closes its link before it evicts it. -/
theorem Reading.evolves_of_step? {α : Type} {decode : Bytes → Except CodecError α} {link : Nat}
    {offer : Option Offer} {r : Reading} {outcome : Reading.Outcome ω α} (h : m.Kept owners)
    (hlink : ∃ c, m.connections[link]? = some c) (hshut : r = .evict → m.Shut link)
    (hstep : r.step? decode source link offer m = some outcome) :
    outcome.manager.Kept owners ∧ m.Evolves (fun _ => False) [] outcome.manager ∧
      outcome.manager.disposed = m.disposed ∧
      (outcome.reading = .evict → outcome.manager.Shut link) := by
  cases r with
  | next =>
    have hsame : outcome.manager = m ∧ outcome.reading ≠ .evict := by
      simp only [Reading.step?] at hstep
      split at hstep
      · cases hstep
        exact ⟨rfl, by simp⟩
      · split at hstep
        · cases hstep
        · cases hstep
          exact ⟨rfl, by simp⟩
        · cases hstep
          exact ⟨rfl, by simp⟩
        · split at hstep <;> cases hstep <;> exact ⟨rfl, by simp⟩
    obtain ⟨hm, hreading⟩ := hsame
    rw [hm]
    exact ⟨h, .refl _ m, rfl, fun hevict => absurd hevict hreading⟩
  | close =>
    cases hstep
    obtain ⟨c, hc⟩ := hlink
    obtain ⟨hkept, hevolves⟩ := h.closeLink link
    exact ⟨hkept, hevolves, rfl, fun _ => Manager.shut_closeLink hc⟩
  | evict =>
    cases hstep
    obtain ⟨hkept, hevolves⟩ := h.evict source (hshut rfl)
    exact ⟨hkept, hevolves, m.disposed_evict source link, by simp⟩
  | done => cases hstep

/-- A disposal empties the cache only when it has closed all links. -/
theorem Disposal.evolves_of_step? {x y : Disposal} (h : m.Kept owners)
    (hforget : x = .forget → m.cancelled = true) (hstep : x.step? m = some (n, y)) :
    n.Kept owners ∧ m.Evolves (fun _ => False) [] n ∧ (y = .forget → n.cancelled = true) ∧
      (n.disposed = true → m.disposed = true ∧ x ≠ .cancel ∨ n.cancelled = true ∨ y = .cancel) := by
  cases x with
  | start =>
    rw [Disposal.step?] at hstep
    split at hstep
    · next hdisposed =>
      cases hstep
      exact ⟨h, .refl _ m, by simp, fun _ => .inl ⟨hdisposed, by simp⟩⟩
    · cases hstep
      exact ⟨⟨h.length_eq, h.cached, h.full, h.uncached, h.closed⟩,
        Manager.evolves_of_cells (fun hc => ⟨_, hc, .refl _⟩) (List.append_nil _).symm rfl rfl id,
        by simp, fun _ => .inr (.inr rfl)⟩
  | cancel =>
    cases hstep
    have hget : ∀ number : Nat,
        (m.connections.map fun c => { c with link := c.link.close })[number]? =
          m.connections[number]?.map fun c => { c with link := c.link.close } :=
      fun number => List.getElem?_map
    have hlater : ∀ {number : Nat} {c : Connection}, m.connections[number]? = some c →
        ∃ d, (m.connections.map fun c => { c with link := c.link.close })[number]? = some d ∧
          c.Continues d := by
      intro number c hc
      exact ⟨{ c with link := c.link.close }, by rw [hget, hc]; rfl, rfl, c.link.continues_close⟩
    have hclosed : true = true → ∀ {number : Nat} {c : Connection},
        (m.connections.map fun c => { c with link := c.link.close })[number]? = some c →
          c.link.isClosed = true := by
      intro _ number d hd
      rw [hget] at hd
      obtain ⟨c, -, rfl⟩ := Option.map_eq_some_iff.1 hd
      exact Link.isClosed_close c.link
    obtain ⟨hkept, hevolves⟩ :=
      h.continueLinks (List.length_map _) hlater (fun _ => rfl) hclosed
    exact ⟨hkept, hevolves, fun _ => rfl, fun _ => .inr (.inl rfl)⟩
  | forget =>
    cases hstep
    obtain ⟨hkept, hevolves⟩ := h.forget (hforget rfl)
    exact ⟨hkept, hevolves, by simp, fun hdisposed => .inl ⟨hdisposed, by simp⟩⟩
  | silence =>
    cases hstep
    exact ⟨⟨h.length_eq, h.cached, h.full, h.uncached, h.closed⟩,
      Manager.evolves_of_cells (fun hc => ⟨_, hc, .refl _⟩) (List.append_nil _).symm rfl rfl id,
      by simp, fun hdisposed => .inl ⟨hdisposed, by simp⟩⟩
  | done => cases hstep

end

end Collective
