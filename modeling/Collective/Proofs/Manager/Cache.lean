import Collective.Manager.Basic

/-!
# The cache of a manager

Every cell of the cache is made for one destination, its owner, and a cell may go on being used
after the cache has forgotten it. `Manager.Kept` says what cells and links have to do with
destinations: a cell outside the cache holds a link that is closed, unless all links are closed.
Whatever is done to a manager keeps this, and others can rely on what `Manager.Evolves` says: links
come to later states, full cells keep their links, only closed links leave the cache, and a cell for
which a call opens a connection is changed by that call alone.
-/

namespace Collective

/-! ## Links -/

namespace Link

variable {l m : Link}

/-- The second of two links is a later state of the first. -/
structure Continues (l m : Link) : Prop where
  remote_eq : m.remote = l.remote
  isClosed : l.isClosed = true → m.isClosed = true

theorem Continues.refl (l : Link) : l.Continues l := ⟨rfl, id⟩

theorem Continues.trans {k : Link} (h : l.Continues m) (g : m.Continues k) : l.Continues k :=
  ⟨g.remote_eq.trans h.remote_eq, g.isClosed ∘ h.isClosed⟩

theorem continues_close (l : Link) : l.Continues l.close := ⟨rfl, fun _ => isClosed_close l⟩

theorem isClosed_iff : l.isClosed = true ↔ l.closed = true ∨ l.writer = .stopped := by
  simp [isClosed]

theorem continues_enqueue {frame : Bytes} (h : l.enqueue frame = .ok m) : l.Continues m := by
  rw [enqueue] at h
  split at h
  · cases h
  · obtain rfl := Except.ok.inj h
    exact ⟨rfl, id⟩

/-- A writer that is gone takes no step, and nothing opens a link that is closed. -/
theorem continues_of_step? {event : Event} (h : l.step? event = some m) : l.Continues m := by
  cases event with
  | close =>
    obtain rfl := Option.some.inj h
    exact continues_close l
  | write =>
    rw [step?, write?] at h
    split at h
    · split at h
      · obtain rfl := Option.some.inj h
        exact ⟨rfl, id⟩
      · cases h
    · cases h
  | fail =>
    rw [step?, fail?] at h
    split at h
    · split at h
      · obtain rfl := Option.some.inj h
        exact ⟨rfl, fun _ => isClosed_iff.2 (.inl rfl)⟩
      · cases h
    · cases h
  | notice =>
    rw [step?, notice?] at h
    split at h
    · next hnotice =>
      obtain rfl := Option.some.inj h
      exact ⟨rfl, fun _ => isClosed_iff.2 (.inl hnotice.2)⟩
    · cases h
  | drain =>
    rw [step?, drain?] at h
    split at h
    · next hdrain =>
      obtain rfl := Option.some.inj h
      refine ⟨rfl, fun hclosed => isClosed_iff.2 (.inl ?_)⟩
      rcases isClosed_iff.1 hclosed with hclosed | hstopped
      · exact hclosed
      · rw [hdrain.1] at hstopped
        cases hstopped
    · cases h
  | stop =>
    rw [step?, stop?] at h
    split at h
    · obtain rfl := Option.some.inj h
      exact ⟨rfl, fun _ => isClosed_iff.2 (.inr rfl)⟩
    · cases h

end Link

namespace Connection

/-- The second of two connections is a later state of the first. -/
structure Continues (c d : Connection) : Prop where
  outbound_eq : d.outbound = c.outbound
  link : c.link.Continues d.link

theorem Continues.refl (c : Connection) : c.Continues c := ⟨rfl, .refl _⟩

theorem Continues.trans {c d e : Connection} (h : c.Continues d) (g : d.Continues e) :
    c.Continues e :=
  ⟨g.outbound_eq.trans h.outbound_eq, h.link.trans g.link⟩

/-- Whether a manager has opened a connection itself, and where it leads. -/
def way (c : Connection) : Bool × Address := (c.outbound, c.link.remote)

theorem Continues.way_eq {c d : Connection} (h : c.Continues d) : d.way = c.way :=
  Prod.ext h.outbound_eq h.link.remote_eq

end Connection

namespace Manager

variable {ω : Type} {m n : Manager ω} {owners : List Address} {destination : Address}
  {cell number : Nat}

/-- There is a link of this number, and it is closed. -/
def Shut (m : Manager ω) (number : Nat) : Prop :=
  ∃ c, m.connections[number]? = some c ∧ c.link.isClosed = true

theorem isOpen_eq (h : m.connections[number]? = some c) :
    m.isOpen number = !c.link.isClosed := by
  rw [isOpen, link?, h]
  rfl

theorem Shut.isOpen (h : m.Shut number) : m.isOpen number = false := by
  obtain ⟨c, hc, hclosed⟩ := h
  rw [isOpen_eq hc, hclosed]
  rfl

theorem shut_of_isOpen {c : Connection} (hc : m.connections[number]? = some c)
    (h : m.isOpen number = false) : m.Shut number := by
  rw [isOpen_eq hc] at h
  exact ⟨c, hc, by simpa using h⟩

theorem cached?_eq_some_iff : m.cached? destination = some number ↔
    ∃ cell, m.cache.get? destination = some cell ∧ m.cells[cell]? = some (.full number) := by
  rw [cached?]
  constructor
  · intro h
    obtain ⟨cell, hcell, h⟩ := Option.bind_eq_some_iff.1 h
    obtain ⟨content, hcontent, h⟩ := Option.bind_eq_some_iff.1 h
    cases content with
    | full link =>
      obtain rfl := Option.some.inj h
      exact ⟨cell, hcell, hcontent⟩
    | empty => cases h
    | opening => cases h
  · rintro ⟨cell, hcell, hcontent⟩
    rw [hcell]
    show (m.cells[cell]?.bind _) = _
    rw [hcontent]
    rfl

theorem connections_modifyLink (m : Manager ω) (number : Nat) (f : Link → Link) (other : Nat) :
    (m.modifyLink number f).connections[other]? = m.connections[other]?.map fun c =>
      if number = other then { c with link := f c.link } else c := by
  rw [modifyLink, List.getElem?_modify]
  split <;> rfl

theorem disposed_cellOf (m : Manager ω) (destination : Address) :
    (m.cellOf destination).1.disposed = m.disposed := by
  rw [cellOf]
  split <;> rfl

theorem disposed_evict (m : Manager ω) (destination : Address) (number : Nat) :
    (m.evict destination number).disposed = m.disposed := by
  rw [evict]
  split <;> rfl

theorem shut_closeLink {c : Connection} (hc : m.connections[number]? = some c) :
    (m.closeLink number).Shut number := by
  refine ⟨_, by rw [closeLink, connections_modifyLink, hc, Option.map_some, if_pos rfl], ?_⟩
  exact Link.isClosed_close c.link

/-! ## What stays -/

/-- The ways of all connections there have been. -/
def ways (m : Manager ω) : List (Bool × Address) := m.connections.map Connection.way

/-- The second of two managers is a later state of the first: links are later states, cells have
kept their links, and only closed links have left the cache. -/
structure Persists (m n : Manager ω) : Prop where
  connection : ∀ {number : Nat} {c : Connection}, m.connections[number]? = some c →
    ∃ d, n.connections[number]? = some d ∧ c.Continues d
  full : ∀ {cell link : Nat}, m.cells[cell]? = some (.full link) →
    n.cells[cell]? = some (.full link)
  cached : ∀ {destination : Address} {link : Nat}, m.cached? destination = some link →
    n.cached? destination = some link ∨ m.Shut link
  cancelled : m.cancelled = true → n.cancelled = true

/-- A later state with connections of these ways added, in which all calls that open one still do,
but for those that use a free cell. -/
structure Evolves (free : Nat → Prop) (added : List (Bool × Address)) (m n : Manager ω) : Prop
    extends m.Persists n where
  opening : ∀ {cell : Nat}, m.cells[cell]? = some .opening → ¬ free cell →
    n.cells[cell]? = some .opening
  ways_eq : n.ways = m.ways ++ added

theorem Persists.shut (h : m.Persists n) (hshut : m.Shut number) : n.Shut number := by
  obtain ⟨c, hc, hclosed⟩ := hshut
  obtain ⟨d, hd, hcontinues⟩ := h.connection hc
  exact ⟨d, hd, hcontinues.link.isClosed hclosed⟩

/-- A connection has been there in the earlier state, or is one of those added. -/
theorem Evolves.connection_cases {free : Nat → Prop} {added : List (Bool × Address)}
    (h : m.Evolves free added n) {d : Connection} (hd : n.connections[number]? = some d) :
    (∃ c, m.connections[number]? = some c ∧ c.Continues d) ∨
      ∃ k, number = m.connections.length + k ∧ added[k]? = some d.way := by
  rcases Nat.lt_or_ge number m.connections.length with hlt | hge
  · have hold := List.getElem?_eq_getElem hlt
    obtain ⟨e, he, hcontinues⟩ := h.connection hold
    obtain rfl := Option.some.inj (hd.symm.trans he)
    exact .inl ⟨_, hold, hcontinues⟩
  · have hway : n.ways[number]? = some d.way := by
      rw [ways, List.getElem?_map, hd, Option.map_some]
    have hlength : m.ways.length = m.connections.length := List.length_map _
    rw [h.ways_eq, List.getElem?_append_right (hlength ▸ hge), hlength] at hway
    exact .inr ⟨_, (Nat.add_sub_cancel' hge).symm, hway⟩

/-- A later state with the same cells, which looks them up in the same places. -/
theorem evolves_of_cells {free : Nat → Prop} {added : List (Bool × Address)}
    (hconnection : ∀ {number : Nat} {c : Connection}, m.connections[number]? = some c →
      ∃ d, n.connections[number]? = some d ∧ c.Continues d)
    (hways : n.ways = m.ways ++ added) (hcells : n.cells = m.cells) (hcache : n.cache = m.cache)
    (hcancelled : m.cancelled = true → n.cancelled = true) : Evolves free added m n where
  connection := hconnection
  full h := hcells ▸ h
  cached h := .inl (by rw [← h, cached?, cached?, hcells, hcache])
  cancelled := hcancelled
  opening h _ := hcells ▸ h
  ways_eq := hways

theorem Evolves.refl (free : Nat → Prop) (m : Manager ω) : Evolves free [] m m :=
  evolves_of_cells (fun hc => ⟨_, hc, .refl _⟩) (List.append_nil _).symm rfl rfl id

theorem Evolves.mono {free more : Nat → Prop} {added : List (Bool × Address)}
    (h : Evolves free added m n)
    (hmore : ∀ cell, m.cells[cell]? = some .opening → free cell → more cell) :
    Evolves more added m n where
  toPersists := h.toPersists
  opening hcell hfree := h.opening hcell fun hother => hfree (hmore _ hcell hother)
  ways_eq := h.ways_eq

/-! ## The invariant -/

/-- Every cell has an owner, the destination for which it has been made. The cache gives a
destination a cell of its own, and a cell holds a link to its owner. A cell that the cache does not
have for its owner holds a closed link, unless all links are closed. -/
structure Kept (owners : List Address) (m : Manager ω) : Prop where
  length_eq : owners.length = m.cells.length
  cached : ∀ {destination : Address} {cell : Nat}, m.cache.get? destination = some cell →
    owners[cell]? = some destination
  full : ∀ {cell number : Nat}, m.cells[cell]? = some (.full number) →
    ∃ c, m.connections[number]? = some c ∧ owners[cell]? = some c.link.remote
  uncached : ∀ {cell : Nat} {destination : Address}, owners[cell]? = some destination →
    m.cache.get? destination = some cell ∨ m.cancelled = true ∨
      ∃ number, m.cells[cell]? = some (.full number) ∧ m.Shut number
  closed : m.cancelled = true → ∀ {number : Nat} {c : Connection},
    m.connections[number]? = some c → c.link.isClosed = true

theorem kept_new (home : Option Address) (maxFrame : Nat) :
    (new home maxFrame : Manager ω).Kept [] where
  length_eq := rfl
  cached h := nomatch h
  full h := nomatch h
  uncached h := nomatch h
  closed h := nomatch h

namespace Kept

theorem append_nil (h : m.Kept owners) : m.Kept (owners ++ []) := by
  rwa [List.append_nil]

/-- A cell that is not full has the place of its owner in the cache. -/
theorem cache_of_not_full (h : m.Kept owners) (howner : owners[cell]? = some destination)
    (hcancelled : m.cancelled = false) (hcell : ∀ number, m.cells[cell]? ≠ some (.full number)) :
    m.cache.get? destination = some cell := by
  rcases h.uncached howner with hcache | hall | ⟨number, hfull, -⟩
  · exact hcache
  · rw [hcancelled] at hall
    cases hall
  · exact absurd hfull (hcell number)

/-- While the link of a destination is open, the cell that holds it is the one in the cache. -/
theorem cache_of_full {c : Connection} (h : m.Kept owners)
    (hcell : m.cells[cell]? = some (.full number)) (hc : m.connections[number]? = some c)
    (hopen : c.link.isClosed = false) : m.cache.get? c.link.remote = some cell := by
  obtain ⟨d, hd, howner⟩ := h.full hcell
  obtain rfl := Option.some.inj (hc.symm.trans hd)
  rcases h.uncached howner with hcache | hall | ⟨other, hother, d, hd, hclosed⟩
  · exact hcache
  · rw [h.closed hall hc] at hopen
    cases hopen
  · obtain rfl := Cell.full.inj (Option.some.inj (hcell.symm.trans hother))
    obtain rfl := Option.some.inj (hc.symm.trans hd)
    rw [hclosed] at hopen
    cases hopen

/-! ## Steps -/

/-- A destination without a cell gets a new one. -/
theorem cellOf (h : m.Kept owners) (destination : Address) : ∃ more,
    (m.cellOf destination).1.Kept (owners ++ more) ∧
      (owners ++ more)[(m.cellOf destination).2]? = some destination ∧
      Evolves (fun _ => False) [] m (m.cellOf destination).1 := by
  cases hcache : m.cache.get? destination with
  | some cell =>
    rw [Manager.cellOf, hcache]
    refine ⟨[], ?_, ?_, .refl _ m⟩
    · rwa [List.append_nil]
    · rw [List.append_nil]
      exact h.cached hcache
  | none =>
    rw [Manager.cellOf, hcache]
    have hnew : (owners ++ [destination])[m.cells.length]? = some destination := by
      rw [← h.length_eq, List.getElem?_concat_length]
    have hold : ∀ {cell : Nat} {content : Cell}, m.cells[cell]? = some content →
        (m.cells ++ [.empty])[cell]? = some content := by
      intro cell content hcell
      rw [List.getElem?_append_left (List.getElem?_eq_some_iff.1 hcell).1, hcell]
    have howned : ∀ {cell : Nat} {owner : Address}, owners[cell]? = some owner →
        (owners ++ [destination])[cell]? = some owner := by
      intro cell owner howner
      rw [List.getElem?_append_left (List.getElem?_eq_some_iff.1 howner).1, howner]
    have hcase : ∀ {cell : Nat} {content : Cell},
        (m.cells ++ [.empty])[cell]? = some content →
          m.cells[cell]? = some content ∨ content = .empty := by
      intro cell content hcell
      rcases Nat.lt_or_ge cell m.cells.length with hlt | hge
      · rw [List.getElem?_append_left hlt] at hcell
        exact .inl hcell
      · rw [List.getElem?_append_right hge, List.getElem?_singleton] at hcell
        split at hcell
        · exact .inr (Option.some.inj hcell).symm
        · cases hcell
    refine ⟨[destination], ⟨?_, ?_, ?_, ?_, h.closed⟩, hnew, ?_⟩
    · simp [h.length_eq]
    · intro other cell hcell
      dsimp only at hcell
      rw [Table.get?_insert] at hcell
      split at hcell
      · next hother =>
        obtain rfl := Option.some.inj hcell
        rw [← hother, hnew]
      · exact howned (h.cached hcell)
    · intro cell number hcell
      rcases hcase hcell with hcell | hempty
      · obtain ⟨c, hc, howner⟩ := h.full hcell
        exact ⟨c, hc, howned howner⟩
      · cases hempty
    · intro cell owner howner
      dsimp only
      rw [Table.get?_insert]
      rcases Nat.lt_or_ge cell owners.length with hlt | hge
      · rw [List.getElem?_append_left hlt] at howner
        rcases h.uncached howner with hcell | hall | ⟨number, hfull, hshut⟩
        · refine .inl ?_
          rw [if_neg, hcell]
          rintro rfl
          rw [hcache] at hcell
          cases hcell
        · exact .inr (.inl hall)
        · exact .inr (.inr ⟨number, hold hfull, hshut⟩)
      · rw [List.getElem?_append_right hge, List.getElem?_singleton] at howner
        split at howner
        · next hlast =>
          obtain rfl := Option.some.inj howner
          have hlength := h.length_eq
          refine .inl ?_
          rw [if_pos rfl]
          congr 1
          omega
        · cases howner
    · refine ⟨⟨fun hc => ⟨_, hc, .refl _⟩, fun hfull => hold hfull, ?_, id⟩,
        fun hopening _ => hold hopening, (List.append_nil _).symm⟩
      intro other link hother
      obtain ⟨cell, hcell, hfull⟩ := cached?_eq_some_iff.1 hother
      refine .inl (cached?_eq_some_iff.2 ⟨cell, ?_, hold hfull⟩)
      dsimp only
      rw [Table.get?_insert, if_neg, hcell]
      rintro rfl
      rw [hcache] at hcell
      cases hcell

/-- A cell that is not full gets another content, which can be a link to its owner. -/
theorem setCell (h : m.Kept owners) (hcell : ∀ number, m.cells[cell]? ≠ some (.full number))
    {content : Cell} (hcontent : ∀ number, content = .full number →
      ∃ c, m.connections[number]? = some c ∧ owners[cell]? = some c.link.remote) :
    (m.setCell cell content).Kept owners ∧
      Evolves (· = cell) [] m (m.setCell cell content) := by
  have hset : ∀ other, other ≠ cell →
      (m.setCell cell content).cells[other]? = m.cells[other]? := by
    intro other hother
    exact List.getElem?_set_ne (Ne.symm hother)
  have hfull : ∀ {other number : Nat}, m.cells[other]? = some (.full number) →
      (m.setCell cell content).cells[other]? = some (.full number) := by
    intro other number hother
    rw [hset other, hother]
    rintro rfl
    exact hcell number hother
  refine ⟨⟨?_, h.cached, ?_, ?_, h.closed⟩, ?_⟩
  · rw [h.length_eq]
    exact List.length_set.symm
  · intro other number hother
    by_cases hsame : other = cell
    · subst hsame
      have hlt := (List.getElem?_eq_some_iff.1 hother).1
      rw [Manager.setCell, List.getElem?_set_self (by simpa [Manager.setCell] using hlt)] at hother
      exact hcontent number (Option.some.inj hother)
    · rw [hset other hsame] at hother
      exact h.full hother
  · intro other destination howner
    rcases h.uncached howner with hcache | hall | ⟨number, hother, hshut⟩
    · exact .inl hcache
    · exact .inr (.inl hall)
    · exact .inr (.inr ⟨number, hfull hother, hshut⟩)
  · refine ⟨⟨fun hc => ⟨_, hc, .refl _⟩, hfull, ?_, id⟩,
      fun hopening hother => (hset _ hother).trans hopening, (List.append_nil _).symm⟩
    intro destination link hcached
    obtain ⟨place, hplace, hlink⟩ := cached?_eq_some_iff.1 hcached
    exact .inl (cached?_eq_some_iff.2 ⟨place, hplace, hfull hlink⟩)

/-- A new link is closed if all are. -/
theorem addLink (h : m.Kept owners) (link : Link) (outbound : Bool) :
    (m.addLink link outbound).1.Kept owners ∧
      Evolves (fun _ => False) [(outbound, link.remote)] m (m.addLink link outbound).1 := by
  have hold : ∀ {number : Nat} {c : Connection}, m.connections[number]? = some c →
      (m.addLink link outbound).1.connections[number]? = some c := by
    intro number c hc
    rw [Manager.addLink, List.getElem?_append_left (List.getElem?_eq_some_iff.1 hc).1, hc]
  refine ⟨⟨h.length_eq, h.cached, ?_, ?_, ?_⟩,
    evolves_of_cells (fun hc => ⟨_, hold hc, .refl _⟩) ?_ rfl rfl id⟩
  · intro cell number hcell
    obtain ⟨c, hc, howner⟩ := h.full hcell
    exact ⟨c, hold hc, howner⟩
  · intro cell destination howner
    rcases h.uncached howner with hcache | hall | ⟨number, hfull, c, hc, hclosed⟩
    · exact .inl hcache
    · exact .inr (.inl hall)
    · exact .inr (.inr ⟨number, hfull, c, hold hc, hclosed⟩)
  · intro hall number c hc
    have hcancelled : m.cancelled = true := hall
    rw [Manager.addLink] at hc
    rcases Nat.lt_or_ge number m.connections.length with hlt | hge
    · rw [List.getElem?_append_left hlt] at hc
      exact h.closed hcancelled hc
    · rw [List.getElem?_append_right hge, List.getElem?_singleton] at hc
      split at hc
      · obtain rfl := Option.some.inj hc
        exact Link.isClosed_close link
      · cases hc
  · rw [ways, Manager.addLink, List.map_append]
    split <;> rfl

/-- Links may come to later states. -/
theorem continueLinks (h : m.Kept owners) {connections : List Connection} {cancelled : Bool}
    (hlength : connections.length = m.connections.length)
    (hlater : ∀ {number : Nat} {c : Connection}, m.connections[number]? = some c →
      ∃ d, connections[number]? = some d ∧ c.Continues d)
    (hcancelled : m.cancelled = true → cancelled = true)
    (hclosed : cancelled = true → ∀ {number : Nat} {c : Connection},
      connections[number]? = some c → c.link.isClosed = true) :
    ({ m with connections, cancelled } : Manager ω).Kept owners ∧
      Evolves (fun _ => False) [] m { m with connections, cancelled } := by
  refine ⟨⟨h.length_eq, h.cached, ?_, ?_, hclosed⟩,
    evolves_of_cells hlater ?_ rfl rfl hcancelled⟩
  · intro cell number hcell
    obtain ⟨c, hc, howner⟩ := h.full hcell
    obtain ⟨d, hd, hcontinues⟩ := hlater hc
    exact ⟨d, hd, by rw [howner, hcontinues.link.remote_eq]⟩
  · intro cell destination howner
    rcases h.uncached howner with hcache | hall | ⟨number, hfull, c, hc, hshut⟩
    · exact .inl hcache
    · exact .inr (.inl (hcancelled hall))
    · obtain ⟨d, hd, hcontinues⟩ := hlater hc
      exact .inr (.inr ⟨number, hfull, d, hd, hcontinues.link.isClosed hshut⟩)
  · rw [List.append_nil]
    refine List.ext_getElem? fun number => ?_
    rw [ways, ways, List.getElem?_map, List.getElem?_map]
    cases hc : m.connections[number]? with
    | none => rw [List.getElem?_eq_none (by rw [hlength, ← List.getElem?_eq_none_iff, hc])]
    | some c =>
      obtain ⟨d, hd, hcontinues⟩ := hlater hc
      rw [hd, Option.map_some, Option.map_some, hcontinues.way_eq]

/-- One link may come to a later state. -/
theorem modifyLink (h : m.Kept owners) {f : Link → Link}
    (hf : ∀ l, m.link? number = some l → l.Continues (f l)) :
    (m.modifyLink number f).Kept owners ∧
      Evolves (fun _ => False) [] m (m.modifyLink number f) := by
  have hlater : ∀ {other : Nat} {c : Connection}, m.connections[other]? = some c →
      ∃ d, (m.modifyLink number f).connections[other]? = some d ∧ c.Continues d := by
    intro other c hc
    rw [connections_modifyLink, hc, Option.map_some]
    refine ⟨_, rfl, ?_⟩
    split
    · next hsame =>
      subst hsame
      exact ⟨rfl, hf c.link (by rw [link?, hc]; rfl)⟩
    · exact .refl _
  refine h.continueLinks (List.length_modify ..) hlater id ?_
  intro hall other d hd
  obtain ⟨c, hc, -⟩ :=
    Option.map_eq_some_iff.1 ((connections_modifyLink m number f other).symm.trans hd)
  obtain ⟨e, he, hcontinues⟩ := hlater hc
  obtain rfl := Option.some.inj (hd.symm.trans he)
  exact hcontinues.link.isClosed (h.closed hall hc)

/-- The cache may forget a link that is closed. -/
theorem evict (h : m.Kept owners) (destination : Address) (hshut : m.Shut number) :
    (m.evict destination number).Kept owners ∧
      Evolves (fun _ => False) [] m (m.evict destination number) := by
  rw [Manager.evict]
  split
  · next hcached =>
    obtain ⟨cell, hcell, hfull⟩ := cached?_eq_some_iff.1 hcached
    refine ⟨⟨h.length_eq, ?_, h.full, ?_, h.closed⟩,
      ⟨fun hc => ⟨_, hc, .refl _⟩, id, ?_, id⟩, fun hopening _ => hopening,
      (List.append_nil _).symm⟩
    · intro other place hplace
      dsimp only at hplace
      rw [Table.get?_erase] at hplace
      split at hplace
      · cases hplace
      · exact h.cached hplace
    · intro place owner howner
      dsimp only
      rw [Table.get?_erase]
      by_cases howned : destination = owner
      · rcases h.uncached howner with hplace | hothers
        · subst howned
          obtain rfl := Option.some.inj (hcell.symm.trans hplace)
          exact .inr (.inr ⟨number, hfull, hshut⟩)
        · exact .inr hothers
      · rw [if_neg howned]
        exact h.uncached howner
    · intro other link hother
      by_cases hsame : destination = other
      · subst hsame
        obtain rfl := Option.some.inj (hcached.symm.trans hother)
        exact .inr hshut
      · obtain ⟨place, hplace, hlink⟩ := cached?_eq_some_iff.1 hother
        refine .inl (cached?_eq_some_iff.2 ⟨place, ?_, hlink⟩)
        dsimp only
        rw [Table.get?_erase, if_neg hsame, hplace]
  · exact ⟨h, .refl _ m⟩

/-- Once all links are closed, the cache may forget everything. -/
theorem forget (h : m.Kept owners) (hcancelled : m.cancelled = true) :
    ({ m with cache := .empty } : Manager ω).Kept owners ∧
      Evolves (fun _ => False) [] m { m with cache := .empty } := by
  refine ⟨⟨h.length_eq, ?_, h.full, ?_, h.closed⟩,
    ⟨fun hc => ⟨_, hc, .refl _⟩, id, ?_, id⟩, fun hopening _ => hopening,
    (List.append_nil _).symm⟩
  · intro destination cell hcell
    cases hcell
  · intro cell destination _
    exact .inr (.inl hcancelled)
  intro destination link hcached
  obtain ⟨cell, -, hfull⟩ := cached?_eq_some_iff.1 hcached
  obtain ⟨c, hc, -⟩ := h.full hfull
  exact .inr ⟨c, hc, h.closed hcancelled hc⟩

end Kept

end Manager

end Collective
