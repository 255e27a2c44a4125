import Mathlib.Data.List.Induction
import Collective.Proofs.Manager.Sharing
import Collective.Proofs.Manager.Step

/-!
# One connection per destination

What goes on at a manager keeps an invariant (`Activity.Kept`): a cell for which a connection is
being opened belongs to one call only, and every link that the manager has opened is in a cell or
about to get there. Hence no two open links have been opened to one destination, only closed links
leave the cache, and while a link in the cache stays open, all calls for its destination find it
(`Activity.Stays`).
-/

namespace Collective

namespace Activity

variable {ω α : Type} {decode : Bytes → Except CodecError α} {a b : Activity ω α}
  {owners more : List Address} {added : List (Bool × Address)}

/-- A link is in a cell, or a call is about to put it there. -/
def Holds (a : Activity ω α) (number : Nat) : Prop :=
  (∃ cell : Nat, a.manager.cells[cell]? = some (.full number)) ∨
    ∃ (i : Nat) (destination : Address) (tries cell : Nat),
      a.dials[i]? = some (destination, .store tries cell number)

/-- All that goes on has found out what is so, no two calls open a connection for the same cell, and
no link that the manager has opened is lost. -/
structure Kept (owners : List Address) (a : Activity ω α) : Prop where
  manager : a.manager.Kept owners
  fits : ∀ {i : Nat} {destination : Address} {d : Dial},
    a.dials[i]? = some (destination, d) → d.Fits owners a.manager destination
  alone : ∀ {i j : Nat} {x y : Address × Dial} {cell : Nat}, a.dials[i]? = some x →
    a.dials[j]? = some y → x.2.cell? = some cell → y.2.cell? = some cell → i = j
  outbound : ∀ {number : Nat} {c : Connection},
    a.manager.connections[number]? = some c → c.outbound = true → a.Holds number
  adoption : ∀ i ∈ a.inbounds, ∀ {source : Address} {x : Adoption},
    i.stage = .adopting source x → x.Fits owners a.manager source
  reader : ∀ r ∈ a.readers, r.Fits a.manager
  forget : .forget ∈ a.disposals → a.manager.cancelled = true
  cancel : a.manager.disposed = true → a.manager.cancelled = true ∨ .cancel ∈ a.disposals

theorem kept_idle (home : Option Address) (maxFrame : Nat) :
    (idle (.new home maxFrame) : Activity ω α).Kept [] where
  manager := Manager.kept_new home maxFrame
  fits h := nomatch h
  alone h := nomatch h
  outbound h := nomatch h
  adoption := nofun
  reader := nofun
  forget := nofun
  cancel := nofun

/-- What one step does to the manager and to the calls for links. -/
structure Advances (a b : Activity ω α) : Prop where
  persists : a.manager.Persists b.manager
  ways : ∃ added, b.manager.ways = a.manager.ways ++ added ∧
    ∀ {destination : Address}, (true, destination) ∈ added →
      ∃ i tries cell : Nat, a.dials[i]? = some (destination, .connect tries cell)
  dial : ∀ {i : Nat} {destination : Address} {e : Dial}, b.dials[i]? = some (destination, e) →
    a.dials[i]? = some (destination, e) ∨ a.dials.length ≤ i ∧ e = .start ∨
      ∃ d reach, a.dials[i]? = some (destination, d) ∧
        d.step? reach destination a.manager = some (b.manager, e)

/-- A step of something that is no call for a link. -/
theorem Advances.of_evolves (h : a.manager.Evolves (fun _ => False) added b.manager)
    (hadded : ∀ way ∈ added, way.1 = false) (hdials : b.dials = a.dials) : a.Advances b where
  persists := h.toPersists
  ways := ⟨added, h.ways_eq, fun hmem => nomatch hadded _ hmem⟩
  dial hdial := .inl (hdials ▸ hdial)

namespace Kept

/-- A manager may evolve by something that is no call for a link, along with its disposals. -/
theorem withDisposals (h : a.Kept owners) {n : Manager ω} {disposals : List Disposal}
    (hn : n.Kept (owners ++ more)) (hevolves : a.manager.Evolves (fun _ => False) added n)
    (hadded : ∀ way ∈ added, way.1 = false) (hforget : .forget ∈ disposals → n.cancelled = true)
    (hcancel : n.disposed = true → n.cancelled = true ∨ .cancel ∈ disposals) :
    ({ a with manager := n, disposals } : Activity ω α).Kept (owners ++ more) where
  manager := hn
  fits hdial := (h.fits hdial).persist hevolves.toPersists fun _ _ hopening =>
    hevolves.opening hopening id
  alone := h.alone
  outbound := by
    intro number c hc hout
    obtain ⟨d, hd, hcontinues⟩ | ⟨k, -, hway⟩ := hevolves.connection_cases hc
    · obtain ⟨cell, hcell⟩ | hstore := h.outbound hd (hcontinues.outbound_eq ▸ hout)
      · exact .inl ⟨cell, hevolves.full hcell⟩
      · exact .inr hstore
    · have hinbound := hadded _ (List.mem_of_getElem? hway)
      rw [Connection.way, hout] at hinbound
      cases hinbound
  adoption i hi source x hstage := (h.adoption i hi hstage).persist hevolves.toPersists
  reader r hr := (h.reader r hr).persist hevolves.toPersists
  forget := hforget
  cancel := hcancel

/-- A manager may evolve by something that is no call for a link and no disposal. -/
theorem withManager (h : a.Kept owners) {n : Manager ω} (hn : n.Kept (owners ++ more))
    (hevolves : a.manager.Evolves (fun _ => False) added n)
    (hadded : ∀ way ∈ added, way.1 = false) (hdisposed : n.disposed = a.manager.disposed) :
    ({ a with manager := n } : Activity ω α).Kept (owners ++ more) := by
  refine h.withDisposals hn hevolves hadded
    (fun hforget => hevolves.cancelled (h.forget hforget)) ?_
  intro hmarked
  rw [hdisposed] at hmarked
  obtain hcancelled | hcancel := h.cancel hmarked
  · exact .inl (hevolves.cancelled hcancelled)
  · exact .inr hcancel

theorem withReaders (h : a.Kept owners) {readers : List Reader}
    (hreaders : ∀ r ∈ readers, r.Fits a.manager) :
    ({ a with readers } : Activity ω α).Kept owners :=
  { h with reader := hreaders }

theorem putInbound (h : a.Kept owners) {number : Nat} {inbound : Inbound}
    (hfits : ∀ {source : Address} {x : Adoption}, inbound.stage = .adopting source x →
      x.Fits owners a.manager source) : (a.putInbound number inbound).Kept owners :=
  { h with
    adoption := fun i hi {_ _} hstage => by
      obtain hi | rfl := List.mem_or_eq_of_mem_set hi
      · exact h.adoption i hi hstage
      · exact hfits hstage }

/-- A read loop gets into another state. -/
theorem setReader (h : a.Kept owners) {number : Nat} {r : Reader} (hr : r.Fits a.manager) :
    ({ a with readers := a.readers.set number r } : Activity ω α).Kept owners := by
  refine h.withReaders ?_
  intro s hs
  obtain hs | rfl := List.mem_or_eq_of_mem_set hs
  · exact h.reader s hs
  · exact hr

/-! ## Steps -/

/-- A call for a link begins, and has found out nothing yet. -/
theorem dial (h : a.Kept owners) (destination : Address) :
    ({ a with dials := a.dials ++ [(destination, .start)] } : Activity ω α).Kept owners ∧
      a.Advances { a with dials := a.dials ++ [(destination, .start)] } := by
  refine ⟨{ h with fits := ?_, alone := ?_, outbound := ?_ }, ⟨?_, ⟨[], ?_, nofun⟩, ?_⟩⟩
  · intro i other d hi
    obtain hi | ⟨-, hx⟩ := getElem?_concat_cases hi
    · exact h.fits hi
    · obtain ⟨rfl, rfl⟩ := Prod.mk.inj hx
      trivial
  · intro i j x y cell hi hj hx hy
    obtain hi | ⟨-, rfl⟩ := getElem?_concat_cases hi
    · obtain hj | ⟨-, rfl⟩ := getElem?_concat_cases hj
      · exact h.alone hi hj hx hy
      · cases hy
    · cases hx
  · intro number c hc hout
    obtain hcell | ⟨i, other, tries, cell, hi⟩ := h.outbound hc hout
    · exact .inl hcell
    · refine .inr ⟨i, other, tries, cell, ?_⟩
      rw [List.getElem?_append_left (List.getElem?_eq_some_iff.1 hi).1, hi]
  · exact (Manager.Evolves.refl (fun _ => False) a.manager).toPersists
  · exact (List.append_nil _).symm
  · intro i other e hi
    obtain hi | ⟨rfl, hx⟩ := getElem?_concat_cases hi
    · exact .inl hi
    · obtain ⟨rfl, rfl⟩ := Prod.mk.inj hx
      exact .inr (.inl ⟨Nat.le_refl _, rfl⟩)

section Dials

variable {call : Nat} {destination : Address} {d e : Dial} {n : Manager ω} {later : List Address}

/-- A call that has just claimed a cell has found it empty, so no other call is opening its link. -/
theorem not_claimed (h : a.Kept owners) (hd : a.dials[call]? = some (destination, d))
    (hmoves : Dial.Moves later a.manager n destination d e) {i cell : Nat} {x : Address × Dial}
    (hne : i ≠ call) (hi : a.dials[i]? = some x) (hcell : x.2.cell? = some cell) :
    e.cell? ≠ some cell := by
  intro hclaimed
  obtain ⟨-, hopening⟩ := (h.fits hi).owner hcell
  obtain hown | hempty := hmoves.claimed hclaimed
  · exact hne (h.alone hi hd hcell hown)
  · rw [hopening] at hempty
    cases hempty

/-- After a step of a call, no two calls open a connection for the same cell. -/
theorem alone_set (h : a.Kept owners) (hd : a.dials[call]? = some (destination, d))
    (hmoves : Dial.Moves later a.manager n destination d e) {i j cell : Nat}
    {x y : Address × Dial} (hi : (a.dials.set call (destination, e))[i]? = some x)
    (hj : (a.dials.set call (destination, e))[j]? = some y) (hx : x.2.cell? = some cell)
    (hy : y.2.cell? = some cell) : i = j := by
  obtain ⟨hother, hbefore⟩ | ⟨rfl, rfl⟩ := getElem?_set_cases hi
  · obtain ⟨-, hj⟩ | ⟨rfl, rfl⟩ := getElem?_set_cases hj
    · exact h.alone hbefore hj hx hy
    · exact absurd hy (h.not_claimed hd hmoves hother hbefore hx)
  · obtain ⟨hother, hbefore⟩ | ⟨rfl, -⟩ := getElem?_set_cases hj
    · exact absurd hx (h.not_claimed hd hmoves hother hbefore hy)
    · rfl

/-- After a step of a call, a link that the manager has opened is in a cell or about to get there:
the one that the call has just opened too, and the one that it has just stored. -/
theorem holds_set (h : a.Kept owners) (hd : a.dials[call]? = some (destination, d))
    (hmoves : Dial.Moves later a.manager n destination d e) (readers : List Reader) {number : Nat}
    {c : Connection} (hc : n.connections[number]? = some c) (hout : c.outbound = true) :
    ({ a with manager := n, dials := a.dials.set call (destination, e), readers } :
      Activity ω α).Holds number := by
  obtain ⟨b, hb, hcontinues⟩ | ⟨k, rfl, hway⟩ := hmoves.evolves.connection_cases hc
  · obtain ⟨cell, hcell⟩ | ⟨i, other, tries, cell, hi⟩ :=
      h.outbound hb (hcontinues.outbound_eq ▸ hout)
    · exact .inl ⟨cell, hmoves.evolves.full hcell⟩
    · by_cases hsame : i = call
      · subst hsame
        obtain ⟨rfl, rfl⟩ := Prod.mk.inj (Option.some.inj (hd.symm.trans hi))
        exact .inl ⟨cell, hmoves.stored rfl⟩
      · exact .inr ⟨i, other, tries, cell, (List.getElem?_set_ne (Ne.symm hsame)).trans hi⟩
  · cases e with
    | store tries cell link =>
      obtain ⟨rfl, -⟩ := hmoves.connected rfl
      obtain rfl : k = 0 := Nat.lt_one_iff.1 (List.getElem?_eq_some_iff.1 hway).1
      have hlt := (List.getElem?_eq_some_iff.1 hd).1
      exact .inr ⟨call, destination, tries, cell, List.getElem?_set_self hlt⟩
    | _ => cases hway

/-- A call for a link goes on. -/
theorem dialStep (h : a.Kept owners) {reach : Except TransportError Unit}
    (hstep : a.dialStep? call reach = some b) :
    ∃ more, b.Kept (owners ++ more) ∧ a.Advances b := by
  obtain ⟨destination, d, n, e, hd, hmove, rfl⟩ := dialStep?_eq_some hstep
  obtain ⟨more, hmoves⟩ := Dial.moves_of_step? h.manager (h.fits hd) hmove
  refine ⟨more, ⟨hmoves.kept, ?_, h.alone_set hd hmoves, h.holds_set hd hmoves _, ?_, ?_, ?_, ?_⟩,
    ⟨hmoves.evolves.toPersists, ⟨_, hmoves.evolves.ways_eq, ?_⟩, ?_⟩⟩
  · intro i other x hi
    obtain ⟨hother, hi⟩ | ⟨-, hx⟩ := getElem?_set_cases hi
    · refine (h.fits hi).persist hmoves.evolves.toPersists fun cell hcell hopening =>
        hmoves.evolves.opening hopening fun hfree => hother ?_
      exact h.alone hi hd hcell hfree
    · obtain ⟨rfl, rfl⟩ := Prod.mk.inj hx
      exact hmoves.fits
  · intro i hi source x hstage
    exact (h.adoption i hi hstage).persist hmoves.evolves.toPersists
  · intro r hr
    obtain hr | hr := List.mem_append.1 hr
    · exact (h.reader r hr).persist hmoves.evolves.toPersists
    · cases e with
      | store tries cell link =>
        obtain rfl := List.mem_singleton.1 hr
        obtain ⟨-, -, c, hc, -⟩ := hmoves.fits
        exact ⟨⟨c, hc⟩, by simp⟩
      | _ => cases hr
  · exact fun hforget => hmoves.evolves.cancelled (h.forget hforget)
  · intro hmarked
    obtain hcancelled | hcancel := h.cancel (hmoves.disposed ▸ hmarked)
    · exact .inl (hmoves.evolves.cancelled hcancelled)
    · exact .inr hcancel
  · intro other hmem
    cases e with
    | store tries cell link =>
      obtain ⟨-, rfl⟩ := Prod.mk.inj (List.mem_singleton.1 hmem)
      obtain ⟨-, rfl⟩ := hmoves.connected rfl
      exact ⟨call, tries, cell, hd⟩
    | _ => cases hmem
  · intro i other x hi
    obtain ⟨-, hi⟩ | ⟨rfl, hx⟩ := getElem?_set_cases hi
    · exact .inl hi
    · obtain ⟨rfl, rfl⟩ := Prod.mk.inj hx
      exact .inr (.inr ⟨d, reach, hd, hmove⟩)

end Dials

/-- Something comes over a connection whose handshake has not been taken. -/
theorem arrive (h : a.Kept owners) {number : Nat} {change : Inlet → Inlet}
    (hstep : a.arrive? number change = some b) : b.Kept owners ∧ a.Advances b := by
  obtain ⟨i, -, hstage, rfl⟩ := arrive?_eq_some hstep
  refine ⟨h.putInbound ?_, .of_evolves (.refl _ _) nofun rfl⟩
  intro source x hadopting
  dsimp only at hadopting
  rw [hstage] at hadopting
  cases hadopting

/-- A peer's handshake is taken, and its connection is there from then on. -/
theorem greet (h : a.Kept owners) {number : Nat} {names : Address.Resolver} {late : Bool}
    (hstep : a.greet? number names late = some b) : b.Kept owners ∧ a.Advances b := by
  obtain ⟨i, -, -, ⟨e, -, rfl⟩ | ⟨link, inlet, -, rfl⟩⟩ := greet?_eq_some hstep
  · exact ⟨h.putInbound nofun, .of_evolves (.refl _ _) nofun rfl⟩
  · obtain ⟨hkept, hevolves⟩ := h.manager.addLink link false
    have hinbound : ∀ way ∈ [(false, link.remote)], way.1 = false := by
      intro way hway
      rw [List.mem_singleton.1 hway]
    have hadded := h.withManager hkept.append_nil hevolves hinbound rfl
    rw [List.append_nil] at hadded
    refine ⟨hadded.putInbound ?_, .of_evolves hevolves hinbound rfl⟩
    rintro source x ⟨⟩
    refine ⟨_, List.getElem?_concat_length, ?_⟩
    dsimp only
    split <;> rfl

/-- Taking over a connection goes on. -/
theorem adopt (h : a.Kept owners) {number : Nat} (hstep : a.adopt? number = some b) :
    ∃ more, b.Kept (owners ++ more) ∧ a.Advances b := by
  obtain ⟨i, source, x, n, y, hi, hstage, hmove, rfl⟩ := adopt?_eq_some hstep
  have hfits := h.adoption i (List.mem_of_getElem? hi) hstage
  obtain ⟨more, hkept, hnext, hevolves, hdisposed⟩ :=
    Adoption.evolves_of_step? h.manager hfits hmove
  refine ⟨more, ?_, .of_evolves hevolves nofun rfl⟩
  have hmanager := h.withManager hkept hevolves nofun hdisposed
  have hreaders : ∀ r ∈ a.readers ++ adopted source i.inlet x, r.Fits n := by
    intro r hr
    obtain hr | hr := List.mem_append.1 hr
    · exact hmanager.reader r hr
    · cases x with
      | store link cell =>
        obtain rfl := List.mem_singleton.1 hr
        obtain ⟨-, c, hc, -⟩ := hfits
        obtain ⟨d, hd, -⟩ := hevolves.connection hc
        exact ⟨⟨d, hd⟩, nofun⟩
      | _ => cases hr
  refine (hmanager.withReaders hreaders).putInbound ?_
  rintro other z ⟨⟩
  exact hnext

/-- A read loop goes on. -/
theorem read (h : a.Kept owners) {number : Nat} (hstep : a.read? decode number = some b) :
    b.Kept owners ∧ a.Advances b := by
  obtain ⟨r, outcome, hr, hmove, rfl⟩ := read?_eq_some hstep
  have hreader := h.reader r (List.mem_of_getElem? hr)
  obtain ⟨hkept, hevolves, hdisposed, hshut⟩ :=
    Reading.evolves_of_step? h.manager hreader.exists_link hreader.shut hmove
  have hmanager := h.withManager hkept.append_nil hevolves nofun hdisposed
  rw [List.append_nil] at hmanager
  have hfits : ∀ inlet, Reader.Fits outcome.manager
      { r with inlet, reading := outcome.reading } :=
    fun _ => ⟨(hreader.persist hevolves.toPersists).exists_link, hshut⟩
  exact ⟨{ hmanager with reader := (hmanager.setReader (hfits _)).reader },
    .of_evolves hevolves nofun rfl⟩

/-- More comes in for a read loop, or its stream ends. -/
theorem setInlet (h : a.Kept owners) {number : Nat} {r : Reader}
    (hr : a.readers[number]? = some r) (inlet : Inlet) :
    ({ a with readers := a.readers.set number { r with inlet } } : Activity ω α).Kept owners :=
  have hreader := h.reader r (List.mem_of_getElem? hr)
  h.setReader ⟨hreader.exists_link, hreader.shut⟩

/-- One link comes to a later state. -/
theorem modifyLink (h : a.Kept owners) {number : Nat} {l k : Link}
    (hl : a.manager.link? number = some l) (hcontinues : l.Continues k) :
    ({ a with manager := a.manager.modifyLink number fun _ => k } : Activity ω α).Kept owners ∧
      a.manager.Evolves (fun _ => False) [] (a.manager.modifyLink number fun _ => k) := by
  have hlater : ∀ other, a.manager.link? number = some other → other.Continues k := by
    intro other hother
    obtain rfl := Option.some.inj (hl.symm.trans hother)
    exact hcontinues
  obtain ⟨hkept, hevolves⟩ := h.manager.modifyLink (f := fun _ => k) hlater
  have hmanager := h.withManager hkept.append_nil hevolves nofun rfl
  rw [List.append_nil] at hmanager
  exact ⟨hmanager, hevolves⟩

/-- A disposal goes on. -/
theorem disposeStep (h : a.Kept owners) {disposal : Nat}
    (hstep : a.disposeStep? disposal = some b) : b.Kept owners ∧ a.Advances b := by
  obtain ⟨x, n, y, hx, hmove, rfl⟩ := disposeStep?_eq_some hstep
  have hforget : x = .forget → a.manager.cancelled = true := by
    rintro rfl
    exact h.forget (List.mem_of_getElem? hx)
  obtain ⟨hkept, hevolves, hlater, hmarked⟩ := Disposal.evolves_of_step? h.manager hforget hmove
  have hforgets : .forget ∈ a.disposals.set disposal y → n.cancelled = true := by
    intro hmem
    obtain hmem | hy := List.mem_or_eq_of_mem_set hmem
    · exact hevolves.cancelled (h.forget hmem)
    · exact hlater hy.symm
  have hcancels : n.disposed = true →
      n.cancelled = true ∨ .cancel ∈ a.disposals.set disposal y := by
    intro hdisposed
    obtain ⟨hold, hne⟩ | hcancelled | rfl := hmarked hdisposed
    · obtain hcancelled | hcancel := h.cancel hold
      · exact .inl (hevolves.cancelled hcancelled)
      · -- the disposal that is about to cancel is another one than the one that goes on
        obtain ⟨i, hi⟩ := List.mem_iff_getElem?.1 hcancel
        refine .inr (List.mem_iff_getElem?.2 ⟨i, ?_⟩)
        rw [List.getElem?_set_ne, hi]
        rintro rfl
        exact hne (Option.some.inj (hx.symm.trans hi))
    · exact .inl hcancelled
    · exact .inr (List.mem_set (List.getElem?_eq_some_iff.1 hx).1 _)
  have hmanager := h.withDisposals hkept.append_nil hevolves nofun hforgets hcancels
  rw [List.append_nil] at hmanager
  exact ⟨hmanager, .of_evolves hevolves nofun rfl⟩

/-- The step lemma: whatever happens next keeps the invariant. -/
theorem step (h : a.Kept owners) {event : Event} (hstep : a.step? decode event = some b) :
    ∃ more, b.Kept (owners ++ more) ∧ a.Advances b := by
  have hquiet : ∀ {c : Activity ω α}, c.Kept owners ∧ a.Advances c →
      ∃ more, c.Kept (owners ++ more) ∧ a.Advances c := by
    rintro c ⟨hkept, hadvances⟩
    exact ⟨[], by rwa [List.append_nil], hadvances⟩
  have hstays : ∀ {c : Activity ω α}, c.Kept owners → c.manager = a.manager → c.dials = a.dials →
      ∃ more, c.Kept (owners ++ more) ∧ a.Advances c := by
    intro c hkept hmanager hdials
    refine hquiet ⟨hkept, .of_evolves ?_ (List.forall_mem_nil _) hdials⟩
    rw [hmanager]
    exact .refl _ _
  cases event with
  | dial destination =>
    obtain rfl := Option.some.inj hstep
    exact hquiet (h.dial destination)
  | dialStep call reach => exact h.dialStep hstep
  | connect peer =>
    rw [step?] at hstep
    split at hstep <;> cases hstep
    refine hstays { h with adoption := ?_ } rfl rfl
    intro i hi source x hstage
    obtain hi | hi := List.mem_append.1 hi
    · exact h.adoption i hi hstage
    · obtain rfl := List.mem_singleton.1 hi
      cases hstage
  | arrive inbound piece =>
    have harrive : a.arrive? inbound (·.receive piece) = some b := hstep
    exact hquiet (h.arrive harrive)
  | depart inbound => exact hquiet (h.arrive hstep)
  | greet inbound names late => exact hquiet (h.greet hstep)
  | abandon inbound =>
    obtain ⟨i, -, -, -, rfl⟩ := abandon?_eq_some hstep
    exact hstays (h.putInbound (by simp)) rfl rfl
  | adopt inbound => exact h.adopt hstep
  | receive reader piece =>
    obtain ⟨r, hr, rfl⟩ := Option.map_eq_some_iff.1 hstep
    exact hstays (h.setInlet hr _) rfl rfl
  | finish reader =>
    obtain ⟨r, hr, rfl⟩ := Option.map_eq_some_iff.1 hstep
    exact hstays (h.setInlet hr _) rfl rfl
  | read reader => exact hquiet (h.read hstep)
  | send link frame =>
    obtain ⟨l, -, rfl⟩ := send?_eq_some hstep
    exact hstays { h with } rfl rfl
  | join sending =>
    obtain ⟨s, l, -, hl, -, ⟨sent, hsent, rfl⟩ | ⟨e, -, rfl⟩⟩ := join?_eq_some hstep
    · obtain ⟨hkept, hevolves⟩ := h.modifyLink hl (Link.continues_enqueue hsent)
      exact hquiet ⟨{ hkept with }, .of_evolves hevolves (List.forall_mem_nil _) rfl⟩
    · exact hstays { h with } rfl rfl
  | dispose =>
    obtain rfl := Option.some.inj hstep
    refine hstays { h with forget := ?_, cancel := ?_ } rfl rfl
    · intro hmem
      obtain hmem | hmem := List.mem_append.1 hmem
      · exact h.forget hmem
      · cases List.mem_singleton.1 hmem
    · intro hdisposed
      exact (h.cancel hdisposed).imp_right (List.mem_append_left _)
  | disposeStep disposal => exact hquiet (h.disposeStep hstep)
  | link number event =>
    obtain ⟨l, moved, hl, hmoved, rfl⟩ := link?_eq_some hstep
    obtain ⟨hkept, hevolves⟩ := h.modifyLink hl (Link.continues_of_step? hmoved)
    exact hquiet ⟨hkept, .of_evolves hevolves (List.forall_mem_nil _) rfl⟩

/-- The run lemma: the invariant holds after any steps, and links have come to later states. -/
theorem run (h : a.Kept owners) {events : List Event} (hrun : a.run? decode events = some b) :
    ∃ more, b.Kept more ∧ ∀ {number : Nat} {c : Connection},
      a.manager.connections[number]? = some c →
        ∃ d, b.manager.connections[number]? = some d ∧ c.Continues d := by
  induction events generalizing a owners with
  | nil =>
    obtain rfl := Option.some.inj hrun
    exact ⟨owners, h, fun hc => ⟨_, hc, .refl _⟩⟩
  | cons event events ih =>
    rw [run?, List.foldlM_cons] at hrun
    obtain ⟨between, hstep, hrest⟩ := Option.bind_eq_some_iff.1 hrun
    obtain ⟨_, hkept, hadvances⟩ := h.step hstep
    obtain ⟨more, hlast, hlater⟩ := ih hkept hrest
    refine ⟨more, hlast, fun hc => ?_⟩
    obtain ⟨d, hd, hnext⟩ := hadvances.persists.connection hc
    obtain ⟨e, he, hrest⟩ := hlater hd
    exact ⟨e, he, hnext.trans hrest⟩

/-! ## Open links -/

theorem not_cancelled (h : a.Kept owners) {number : Nat} {c : Connection}
    (hc : a.manager.connections[number]? = some c) (hopen : c.link.isClosed = false) :
    a.manager.cancelled = false := by
  cases hcancelled : a.manager.cancelled with
  | false => rfl
  | true =>
    rw [h.manager.closed hcancelled hc] at hopen
    cases hopen

/-- A link that the manager has opened to a destination, and that is open, is in the cell which the
cache has for the destination, or about to get there. -/
theorem exists_cell (h : a.Kept owners) {number : Nat} {c : Connection}
    (hc : a.manager.connections[number]? = some c) (hout : c.outbound = true)
    (hopen : c.link.isClosed = false) :
    ∃ cell, a.manager.cache.get? c.link.remote = some cell ∧
      (a.manager.cells[cell]? = some (.full number) ∨
        ∃ i tries : Nat, a.dials[i]? = some (c.link.remote, .store tries cell number)) := by
  obtain ⟨cell, hcell⟩ | ⟨i, destination, tries, cell, hi⟩ := h.outbound hc hout
  · exact ⟨cell, h.manager.cache_of_full hcell hc hopen, .inl hcell⟩
  · obtain ⟨howner, hopening, d, hd, rfl⟩ := h.fits hi
    obtain rfl := Option.some.inj (hc.symm.trans hd)
    refine ⟨cell, ?_, .inr ⟨i, tries, hi⟩⟩
    exact h.manager.cache_of_not_full howner (h.not_cancelled hc hopen) (by simp [hopening])

/-- No two open links have been opened to one destination. -/
theorem eq_of_open (h : a.Kept owners) {i j : Nat} {c d : Connection}
    (hc : a.manager.connections[i]? = some c) (hd : a.manager.connections[j]? = some d)
    (hcout : c.outbound = true) (hdout : d.outbound = true) (hcopen : c.link.isClosed = false)
    (hdopen : d.link.isClosed = false) (hremote : c.link.remote = d.link.remote) : i = j := by
  obtain ⟨cell, hcell, hi⟩ := h.exists_cell hc hcout hcopen
  obtain ⟨other, hother, hj⟩ := h.exists_cell hd hdout hdopen
  rw [hremote] at hcell hi
  obtain rfl := Option.some.inj (hcell.symm.trans hother)
  have hmixed : ∀ {number : Nat}, a.manager.cells[cell]? = some (.full number) →
      ¬∃ k tries link : Nat, a.dials[k]? = some (d.link.remote, .store tries cell link) := by
    rintro number hfull ⟨k, tries, link, hk⟩
    obtain ⟨-, hopening, -⟩ := h.fits hk
    rw [hopening] at hfull
    cases hfull
  obtain hi | ⟨k, tries, hi⟩ := hi
  · obtain hj | ⟨l, tries, hj⟩ := hj
    · exact Cell.full.inj (Option.some.inj (hi.symm.trans hj))
    · exact absurd ⟨l, tries, j, hj⟩ (hmixed hi)
  · obtain hj | ⟨l, again, hj⟩ := hj
    · exact absurd ⟨k, tries, i, hi⟩ (hmixed hj)
    · obtain rfl := h.alone hi hj rfl rfl
      exact (Dial.store.inj (Prod.mk.inj (Option.some.inj (hi.symm.trans hj))).2).2.2

/-- While the cache has an open link for a destination, nobody opens another one. -/
theorem not_connecting (h : a.Kept owners) {destination : Address} {link i tries cell : Nat}
    (hcached : a.manager.cached? destination = some link) (hopen : a.manager.isOpen link = true) :
    a.dials[i]? ≠ some (destination, .connect tries cell) := by
  intro hi
  obtain ⟨howner, hopening⟩ := h.fits hi
  obtain ⟨other, hother, hfull⟩ := Manager.cached?_eq_some_iff.1 hcached
  obtain ⟨c, hc, -⟩ := h.manager.full hfull
  rw [Manager.isOpen_eq hc] at hopen
  have hcell := h.manager.cache_of_not_full howner (h.not_cancelled hc (by simpa using hopen))
    (by simp [hopening])
  obtain rfl := Option.some.inj (hcell.symm.trans hother)
  rw [hopening] at hfull
  cases hfull

end Kept

end Activity

/-! ## Calls that begin while the cache has a link -/

namespace Dial

variable {ω : Type} {m n : Manager ω} {destination : Address} {link : Nat} {d e : Dial}

/-- How far a call has come that finds this link. -/
def Finds (m : Manager ω) (link : Nat) : Dial → Prop
  | .check tries => 0 < tries
  | .look _ => True
  | .wait _ cell => m.cells[cell]? = some (.full link)
  | .inspect _ other => other = link
  | .answered result => result = .ok link ∨ result = .error .disposed ∧ m.disposed = true
  | _ => False

theorem Finds.persist (h : d.Finds m link) (hn : m.Persists n)
    (hdisposed : m.disposed = true → n.disposed = true) : d.Finds n link := by
  cases d with
  | wait tries cell => exact hn.full h
  | answered result => exact h.imp id fun hanswer => ⟨hanswer.1, hdisposed hanswer.2⟩
  | check tries => exact h
  | look tries => exact h
  | inspect tries other => exact h
  | _ => exact h.elim

theorem Finds.step {reach : Except TransportError Unit} (h : d.Finds m link)
    (hcached : m.cached? destination = some link) (hopen : m.isOpen link = true)
    (hstep : d.step? reach destination m = some (n, e)) : e.Finds n link := by
  cases d with
  | check tries =>
    cases tries with
    | zero => cases h
    | succ tries =>
      rw [step?] at hstep
      split at hstep
      · next hdisposed =>
        cases hstep
        exact .inr ⟨rfl, hdisposed⟩
      · cases hstep
        trivial
  | look tries =>
    obtain ⟨cell, hcell, hfull⟩ := Manager.cached?_eq_some_iff.1 hcached
    have hfound : m.cellOf destination = (m, cell) := by rw [Manager.cellOf, hcell]
    rw [step?, hfound] at hstep
    cases hstep
    exact hfull
  | wait tries cell =>
    rw [step?, show m.cells[cell]? = some (.full link) from h] at hstep
    cases hstep
    rfl
  | inspect tries other =>
    obtain rfl := h
    rw [step?, if_pos hopen] at hstep
    cases hstep
    exact .inl rfl
  | answered result => cases hstep
  | _ => exact h.elim

/-- Such a call has ended, or is not kept waiting. -/
theorem Finds.ends_or_goes_on (h : d.Finds m link) (destination : Address) :
    (∃ result, d = .answered result ∧
        (result = .ok link ∨ result = .error .disposed ∧ m.disposed = true)) ∨
      ∀ reach, (d.step? reach destination m).isSome := by
  cases d with
  | check tries =>
    refine .inr fun reach => ?_
    cases tries with
    | zero => rfl
    | succ tries =>
      rw [step?]
      split <;> rfl
  | look tries => exact .inr fun _ => rfl
  | wait tries cell =>
    refine .inr fun reach => ?_
    rw [step?, show m.cells[cell]? = some (.full link) from h]
    rfl
  | inspect tries other => exact .inr fun _ => rfl
  | answered result => exact .inl ⟨result, rfl, h⟩
  | _ => exact h.elim

end Dial

namespace Activity

variable {ω α : Type} {decode : Bytes → Except CodecError α} {a b c : Activity ω α}
  {owners : List Address} {destination : Address} {link : Nat}

/-- What holds in an activity as long as a link stays open that the cache had in an earlier one:
the cache still has it, no connection has been opened to its destination, and all calls that have
begun since find it. -/
structure Stays (a b : Activity ω α) (destination : Address) (link : Nat) : Prop where
  cached : b.manager.cached? destination = some link
  ways : ∃ added, b.manager.ways = a.manager.ways ++ added ∧ (true, destination) ∉ added
  finds : ∀ {i : Nat} {d : Dial}, a.dials.length ≤ i → b.dials[i]? = some (destination, d) →
    d.Finds b.manager link

theorem Stays.refl (h : a.manager.cached? destination = some link) :
    a.Stays a destination link where
  cached := h
  ways := ⟨[], (List.append_nil _).symm, nofun⟩
  finds hge hi := absurd (List.getElem?_eq_some_iff.1 hi).1 (Nat.not_lt.2 hge)

theorem isOpen_of_persists {m n : Manager ω} {c : Connection}
    (hc : m.connections[link]? = some c) (h : m.Persists n) (hopen : n.isOpen link = true) :
    m.isOpen link = true := by
  cases hclosed : m.isOpen link with
  | true => rfl
  | false =>
    rw [(h.shut (Manager.shut_of_isOpen hc hclosed)).isOpen] at hopen
    cases hopen

theorem Stays.step {event : Event} (h : a.Stays b destination link) (hkept : b.Kept owners)
    (hstep : b.step? decode event = some c) (hbefore : b.manager.isOpen link = true) :
    a.Stays c destination link := by
  obtain ⟨more, -, hadvances⟩ := hkept.step hstep
  have hsucceeds := succeeds_of_step? hstep
  obtain ⟨added, hways, hadded⟩ := hadvances.ways
  refine ⟨?_, ?_, ?_⟩
  · obtain hcached | hshut := hadvances.persists.cached h.cached
    · exact hcached
    · rw [hshut.isOpen] at hbefore
      cases hbefore
  · obtain ⟨earlier, hearlier, hnone⟩ := h.ways
    refine ⟨earlier ++ added, by rw [hways, hearlier, List.append_assoc], ?_⟩
    intro hmem
    obtain hmem | hmem := List.mem_append.1 hmem
    · exact hnone hmem
    · obtain ⟨i, tries, cell, hi⟩ := hadded hmem
      exact hkept.not_connecting h.cached hbefore hi
  · intro i d hge hi
    obtain hsame | ⟨-, rfl⟩ | ⟨d, reach, hd, hmove⟩ := hadvances.dial hi
    · exact (h.finds hge hsame).persist hadvances.persists hsucceeds.disposed
    · exact Nat.zero_lt_two
    · exact (h.finds hge hd).step h.cached hbefore hmove

theorem Kept.stays {events : List Event} (h : a.Kept owners)
    (hcached : a.manager.cached? destination = some link)
    (hrun : a.run? decode events = some b) (hopen : b.manager.isOpen link = true) :
    a.Stays b destination link := by
  induction events using List.reverseRecOn generalizing b with
  | nil =>
    obtain rfl := Option.some.inj hrun
    exact .refl hcached
  | append_singleton events event ih =>
    rw [run?, List.foldlM_append] at hrun
    obtain ⟨c, hbefore, hafter⟩ := Option.bind_eq_some_iff.1 hrun
    rw [List.foldlM_cons] at hafter
    obtain ⟨_, hstep, hlast⟩ := Option.bind_eq_some_iff.1 hafter
    obtain rfl := Option.some.inj hlast
    obtain ⟨more, hkept, hlater⟩ := h.run hbefore
    obtain ⟨_, -, hadvances⟩ := hkept.step hstep
    obtain ⟨cell, -, hfull⟩ := Manager.cached?_eq_some_iff.1 hcached
    obtain ⟨d, hd, -⟩ := h.manager.full hfull
    obtain ⟨e, he, -⟩ := hlater hd
    have hbetween := isOpen_of_persists he hadvances.persists hopen
    exact (ih hbefore hbetween).step hkept hstep hbetween

theorem Stays.opened_eq (h : a.Stays b destination link) :
    b.manager.opened = a.manager.opened +
      (b.manager.connections.drop a.manager.connections.length).countP
        fun c => c.outbound && c.link.remote ≠ destination := by
  obtain ⟨added, hways, hnone⟩ := h.ways
  have hlength : a.manager.ways.length = a.manager.connections.length := List.length_map _
  have hbefore : (b.manager.connections.take a.manager.connections.length).map Connection.way =
      a.manager.ways := by
    rw [List.map_take, ← Manager.ways, hways, List.take_left' hlength]
  have hadded : (b.manager.connections.drop a.manager.connections.length).map Connection.way =
      added := by
    rw [List.map_drop, ← Manager.ways, hways, List.drop_left' hlength]
  have hcount : ∀ connections : List Connection,
      connections.countP (·.outbound) = (connections.map Connection.way).countP (·.1) :=
    fun connections => by rw [List.countP_map]; rfl
  rw [Manager.opened, Manager.opened,
    ← List.take_append_drop a.manager.connections.length b.manager.connections,
    List.countP_append, hcount, hbefore, hcount a.manager.connections, ← Manager.ways,
    List.take_append_drop]
  congr 1
  refine List.countP_congr fun c hc => ?_
  rw [Bool.and_eq_true, decide_eq_true_eq, iff_self_and]
  rintro hout rfl
  refine hnone (hadded ▸ List.mem_map.2 ⟨c, hc, ?_⟩)
  rw [Connection.way, hout]

/-! ## One connection per destination -/

/-- Whatever happens at a manager and in whichever order: it has at most one open link to a
destination among those it has opened itself; a link leaves the cache only when it is closed; and
from any moment at which the cache has a link until one at which that link is still open, the cache
keeps it, no connection to its destination is opened, and every call for the destination that begins
returns the link: it is never kept waiting, and every step brings it nearer to its end. Only a
disposal that turns calls away and has yet to close all links makes a difference; calls then answer
that the manager has been disposed of. -/
theorem one_connection_per_destination {home : Option Address} {maxFrame : Nat}
    {events : List Event} (hrun : (idle (.new home maxFrame)).run? decode events = some a) :
    (∀ {i j : Nat} {c d : Connection}, a.manager.connections[i]? = some c →
      a.manager.connections[j]? = some d → c.outbound = true → d.outbound = true →
        c.link.isClosed = false → d.link.isClosed = false → c.link.remote = d.link.remote →
          i = j) ∧
    (∀ {event : Event} {b : Activity ω α} {destination : Address} {link : Nat},
      a.step? decode event = some b → a.manager.cached? destination = some link →
        b.manager.cached? destination ≠ some link → a.manager.isOpen link = false) ∧
    ∀ {later : List Event} {b : Activity ω α} {destination : Address} {link : Nat},
      a.run? decode later = some b → a.manager.cached? destination = some link →
        b.manager.isOpen link = true →
          b.manager.cached? destination = some link ∧
          b.manager.opened = a.manager.opened +
            (b.manager.connections.drop a.manager.connections.length).countP
              (fun c => c.outbound && c.link.remote ≠ destination) ∧
          ∀ {i : Nat} {d : Dial}, a.dials.length ≤ i → b.dials[i]? = some (destination, d) →
            (∃ result, d = .answered result ∧
              (result = .ok link ∨ result = .error .disposed ∧ .cancel ∈ b.disposals)) ∨
            ∀ reach, ∃ c e, b.step? decode (.dialStep i reach) = some c ∧
              c.dials[i]? = some (destination, e) ∧ e.rank < d.rank := by
  obtain ⟨owners, hkept, -⟩ := (kept_idle home maxFrame).run hrun
  refine ⟨hkept.eq_of_open, ?_, ?_⟩
  · intro event b destination link hstep hcached hgone
    obtain ⟨_, -, hadvances⟩ := hkept.step hstep
    obtain hstays | hshut := hadvances.persists.cached hcached
    · exact absurd hstays hgone
    · exact hshut.isOpen
  · intro later b destination link hlater hcached hopen
    have hstays := hkept.stays hcached hlater hopen
    refine ⟨hstays.cached, hstays.opened_eq, ?_⟩
    intro i d hge hi
    obtain ⟨result, rfl, hresult⟩ | hgoes := (hstays.finds hge hi).ends_or_goes_on destination
    · refine .inl ⟨result, rfl, hresult.imp id fun ⟨herror, hdisposed⟩ => ⟨herror, ?_⟩⟩
      obtain ⟨_, hlast, -⟩ := hkept.run hlater
      refine (hlast.cancel hdisposed).resolve_left ?_
      obtain ⟨cell, -, hfull⟩ := Manager.cached?_eq_some_iff.1 hstays.cached
      obtain ⟨c, hc, -⟩ := hlast.manager.full hfull
      rw [Manager.isOpen_eq hc] at hopen
      rw [hlast.not_cancelled hc (by simpa using hopen)]
      exact Bool.false_ne_true
    · refine .inr fun reach => ?_
      obtain ⟨⟨n, e⟩, hmove⟩ := Option.isSome_iff_exists.1 (hgoes reach)
      refine ⟨{ b with
          manager := n
          dials := b.dials.set i (destination, e)
          readers := b.readers ++ started destination e }, e, ?_, ?_, Dial.rank_lt_of_step? hmove⟩
      · rw [step?, dialStep?, hi, Option.bind_eq_bind, Option.bind_some]
        dsimp only
        rw [hmove]
        rfl
      · exact List.getElem?_set_self (List.getElem?_eq_some_iff.1 hi).1

/-! ## Two calls at once -/

namespace Pair

/-- The manager of another task. -/
def peer : Address := .v4 ⟨10, 0, 0, 2⟩ 7000

/-- Two calls ask for a link to the same destination. Both find the empty cell; the second has to
wait until the first has opened the connection. -/
def meeting : List Event :=
  [.dial peer, .dial peer, .dialStep 0 (.ok ()), .dialStep 1 (.ok ()), .dialStep 0 (.ok ()),
    .dialStep 1 (.ok ()), .dialStep 0 (.ok ()), .dialStep 0 (.ok ()), .dialStep 0 (.ok ()),
    .dialStep 1 (.ok ()), .dialStep 0 (.ok ()), .dialStep 1 (.ok ())]

/-- Another call comes to an end. -/
def joining : List Event :=
  [.dial peer, .dialStep 2 (.ok ()), .dialStep 2 (.ok ()), .dialStep 2 (.ok ()),
    .dialStep 2 (.ok ())]

/-- The peer ends its stream, and the read loop closes the link; it is about to evict it. -/
def leaving : List Event := [.finish 0, .read 0, .read 0]

def begun : Activity Unit Unit := idle (.new none 1024)

def met : Activity Unit Unit :=
  (begun.run? (fun _ => .ok ()) meeting).get (by decide +kernel)

def joined : Activity Unit Unit :=
  (met.run? (fun _ => .ok ()) joining).get (by decide +kernel)

def closed : Activity Unit Unit :=
  (begun.run? (fun _ => .ok ()) (meeting ++ leaving)).get (by decide +kernel)

def evicted : Activity Unit Unit :=
  (closed.step? (fun _ => .ok ()) (.read 0)).get (by decide +kernel)

/-- Three calls have ended, and one connection has been opened. -/
theorem one_connection_for_three :
    (met.manager.cached? peer = some 0 ∧ joined.manager.isOpen 0 = true ∧
      joined.manager.cached? peer = some 0 ∧ joined.manager.opened = 1 ∧
        joined.dials.map (·.2.rank) = [0, 0, 0]) ∧
    closed.manager.cached? peer = some 0 ∧ evicted.manager.cached? peer ≠ some 0 ∧
      closed.manager.isOpen 0 = false := by
  have hmet : met.manager.cached? peer = some 0 := by decide +kernel
  have hjoined : joined.manager.isOpen 0 = true := by decide +kernel
  have hclosed : closed.manager.cached? peer = some 0 := by decide +kernel
  have hevicted : evicted.manager.cached? peer ≠ some 0 := by decide +kernel
  have hmeeting : begun.run? (fun _ => .ok ()) meeting = some met := (Option.some_get _).symm
  have hjoining : met.run? (fun _ => .ok ()) joining = some joined := (Option.some_get _).symm
  have hleaving : begun.run? (fun _ => .ok ()) (meeting ++ leaving) = some closed :=
    (Option.some_get _).symm
  obtain ⟨-, -, hkeeps⟩ := one_connection_per_destination hmeeting
  obtain ⟨-, hleaves, -⟩ := one_connection_per_destination hleaving
  obtain ⟨hcached, hopened, -⟩ := hkeeps hjoining hmet hjoined
  exact ⟨⟨hmet, hjoined, hcached, hopened.trans (by decide +kernel), by decide +kernel⟩,
    hclosed, hevicted, hleaves (Option.some_get _).symm hclosed hevicted⟩

/-- The call has ended with an error. -/
def failed : Dial → Bool
  | .answered (.error _) => true
  | _ => false

theorem exists_of_failed {d : Dial} (h : failed d = true) : ∃ e, d = .answered (.error e) := by
  cases d with
  | answered result =>
    cases result with
    | error e => exact ⟨e, rfl⟩
    | ok link => cases h
  | _ => cases h

/-- A disposal begins, and another call comes to its end before the disposal goes on. -/
def turning : List Event := [.dispose, .disposeStep 0, .dial peer, .dialStep 2 (.ok ())]

def turned : Activity Unit Unit :=
  (met.run? (fun _ => .ok ()) turning).get (by decide +kernel)

def rejected : Address × Dial := turned.dials[2]?.get (by decide +kernel)

/-- As long as the cache has a link and this link is open, not every call for its destination returns
it: between the first step of a disposal and the one that closes all links, calls are turned away. -/
theorem turned_away_while_open :
    ¬ ∀ {events later : List Event} {a b : Activity Unit Unit} {destination : Address} {link : Nat},
      begun.run? (fun _ => .ok ()) events = some a → a.manager.cached? destination = some link →
        a.run? (fun _ => .ok ()) later = some b → b.manager.cached? destination = some link →
          b.manager.isOpen link = true →
            ∀ {i : Nat} {result : Except TransportError Nat}, a.dials.length ≤ i →
              b.dials[i]? = some (destination, .answered result) → result = .ok link := by
  intro h
  have hmeeting : begun.run? (fun _ => .ok ()) meeting = some met := (Option.some_get _).symm
  have hturning : met.run? (fun _ => .ok ()) turning = some turned := (Option.some_get _).symm
  have hmet : met.manager.cached? peer = some 0 := by decide +kernel
  have hcached : turned.manager.cached? peer = some 0 := by decide +kernel
  have hopen : turned.manager.isOpen 0 = true := by decide +kernel
  have hlength : met.dials.length ≤ 2 := by decide +kernel
  have hfailed : failed rejected.2 = true := by decide +kernel
  obtain ⟨e, hanswer⟩ := exists_of_failed hfailed
  have hpeer : rejected.1 = peer := by decide +kernel
  have hrejected : rejected = (peer, .answered (.error e)) := Prod.ext hpeer hanswer
  have hdial : turned.dials[2]? = some rejected := (Option.some_get _).symm
  rw [hrejected] at hdial
  cases h hmeeting hmet hturning hcached hopen hlength hdial

end Pair

end Activity

end Collective
