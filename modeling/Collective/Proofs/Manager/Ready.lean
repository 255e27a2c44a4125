import Collective.Proofs.Link.Handshake
import Collective.Proofs.Manager.Cache

/-!
# Managers that send

A manager is ready if it has not been disposed of, its handshake is a frame that it may send, and
every link in its cache can be used. A call for a link that nothing interrupts then gets one, from
the cache or newly opened, as long as somebody listens at its destination. Neither such a call nor a
connection that is taken over changes anything but the links of the manager.
-/

namespace Collective

/-! ## Links -/

namespace Link

/-- A link over which frames of at most this length can be sent. -/
structure Usable (l : Link) (max : Nat) : Prop where
  closed : l.closed = false
  writer : l.writer ≠ .stopped
  maxFrame_eq : l.maxFrame = max

theorem usable_new (remote : Address) (max : Nat) : (new remote max).Usable max :=
  ⟨rfl, nofun, rfl⟩

variable {l : Link} {max : Nat}

theorem Usable.isClosed (h : l.Usable max) : l.isClosed = false := by
  simp [Link.isClosed, h.closed, h.writer]

/-- Only the length of a frame decides whether it can be sent. -/
theorem Usable.send_eq (h : l.Usable max) (frame : Bytes) : l.send frame =
    if max < frame.length then .error (.frameTooLarge frame.length max)
    else .ok { l with queue := l.queue ++ [frame] } := by
  obtain ⟨hclosed, hwriter, rfl⟩ := h
  rw [send, check, enqueue, if_neg hwriter]
  split
  · rfl
  · rw [hclosed]
    rfl

end Link

/-! ## Calls that nothing interrupts -/

namespace Dial

variable {ω : Type} {reach : Except TransportError Unit} {destination : Address} {m n : Manager ω}
  {d e : Dial}

theorem run_answered (m : Manager ω) (result : Except TransportError Nat) :
    (answered result).run reach destination m = (m, result) := by
  rw [run]

/-- The first step of a call that can go on. -/
theorem run_of_step? (h : d.step? reach destination m = some (n, e)) :
    d.run reach destination m = e.run reach destination n := by
  have hopen : ∀ result, d = answered result → False := by
    rintro result rfl
    cases h
  rw [run, h]
  exact hopen

end Dial

namespace Manager

variable {ω : Type} {m n : Manager ω} {cell link : Nat} {l : Link}

/-! ## What a manager is without its links -/

/-- The manager without its links. -/
def unlinked (m : Manager ω) : Manager ω := { m with cache := .empty, cells := [], connections := [] }

theorem unlinked_cellOf (m : Manager ω) (destination : Address) :
    (m.cellOf destination).1.unlinked = m.unlinked := by
  rw [cellOf]
  split <;> rfl

/-! ## Ready managers -/

/-- The link of this number can be used. -/
def Offers (m : Manager ω) (link : Nat) : Prop := ∃ l, m.link? link = some l ∧ l.Usable m.maxFrame

/-- A cell waits for a link, or has one that can be used. -/
def Serves (m : Manager ω) (cell : Nat) : Prop :=
  m.cells[cell]? = some .empty ∨ ∃ link, m.cells[cell]? = some (.full link) ∧ m.Offers link

/-- A manager that sends. -/
structure Ready (m : Manager ω) : Prop where
  live : m.disposed = false
  uncancelled : m.cancelled = false
  room : Handshake.size m.home ≤ m.maxFrame
  serves : ∀ {destination : Address} {cell : Nat}, m.cache.get? destination = some cell →
    m.Serves cell

theorem Offers.addLink (h : m.Offers link) (added : Link) (outbound : Bool) :
    (m.addLink added outbound).1.Offers link := by
  obtain ⟨l, hl, husable⟩ := h
  obtain ⟨c, hc, rfl⟩ := Option.map_eq_some_iff.1 hl
  refine ⟨c.link, ?_, husable⟩
  rw [link?, Manager.addLink, List.getElem?_append_left (List.getElem?_eq_some_iff.1 hc).1, hc,
    Option.map_some]

theorem Offers.modifyLink (h : m.Offers link) {sent : Link} (hsent : sent.Usable m.maxFrame)
    (number : Nat) : (m.modifyLink number fun _ => sent).Offers link := by
  obtain ⟨l, hl, husable⟩ := h
  obtain ⟨c, hc, rfl⟩ := Option.map_eq_some_iff.1 hl
  rw [Offers, link?, connections_modifyLink, hc, Option.map_some, Option.map_some]
  split
  · exact ⟨sent, rfl, hsent⟩
  · exact ⟨c.link, rfl, husable⟩

theorem Offers.isOpen (h : m.Offers link) : m.isOpen link = true := by
  obtain ⟨l, hl, husable⟩ := h
  simp [Manager.isOpen, hl, husable.isClosed]

namespace Ready

variable {destination : Address}

theorem addLink (h : m.Ready) (added : Link) (outbound : Bool) :
    (m.addLink added outbound).1.Ready where
  live := h.live
  uncancelled := h.uncancelled
  room := h.room
  serves hcell := (h.serves hcell).imp_right fun ⟨link, hfull, hoffers⟩ =>
    ⟨link, hfull, hoffers.addLink added outbound⟩

/-- A new link of a ready manager can be used. -/
theorem offers_addLink (h : m.Ready) (remote : Address) (outbound : Bool) :
    (m.addLink (.new remote m.maxFrame) outbound).1.Offers m.connections.length := by
  refine ⟨.new remote m.maxFrame, ?_, Link.usable_new remote m.maxFrame⟩
  simp [link?, Manager.addLink, h.uncancelled]

theorem cellOf (h : m.Ready) (destination : Address) :
    (m.cellOf destination).1.Ready ∧
      (m.cellOf destination).1.Serves (m.cellOf destination).2 := by
  rw [Manager.cellOf]
  split
  · next cell hcell => exact ⟨h, h.serves hcell⟩
  · have hnew : (m.cells ++ [Cell.empty])[m.cells.length]? = some .empty :=
      List.getElem?_concat_length
    refine ⟨⟨h.live, h.uncancelled, h.room, fun {other cell} hcell => ?_⟩, .inl hnew⟩
    rw [Table.get?_insert] at hcell
    split at hcell
    · obtain rfl := Option.some.inj hcell
      exact .inl hnew
    · have hold : ∀ {content : Cell}, m.cells[cell]? = some content →
          (m.cells ++ [Cell.empty])[cell]? = some content := by
        intro content hcontent
        rw [List.getElem?_append_left (List.getElem?_eq_some_iff.1 hcontent).1, hcontent]
      refine (h.serves hcell).imp hold ?_
      rintro ⟨link, hfull, hoffers⟩
      exact ⟨link, hold hfull, hoffers⟩

/-- A link that can be used is put into a cell. -/
theorem setCell (h : m.Ready) (cell : Nat) (hlink : m.Offers link) :
    (m.setCell cell (.full link)).Ready where
  live := h.live
  uncancelled := h.uncancelled
  room := h.room
  serves {other number} hnumber := by
    by_cases hsame : number = cell
    · subst hsame
      have hlt : number < m.cells.length := by
        obtain hempty | ⟨_, hfull, -⟩ := h.serves hnumber
        · exact (List.getElem?_eq_some_iff.1 hempty).1
        · exact (List.getElem?_eq_some_iff.1 hfull).1
      exact .inr ⟨link, List.getElem?_set_self hlt, hlink⟩
    · have hold : (m.setCell cell (.full link)).cells[number]? = m.cells[number]? :=
        List.getElem?_set_ne (Ne.symm hsame)
      rw [Serves, hold]
      exact h.serves hnumber

/-- Connections are taken over at any time. -/
theorem adopt (h : m.Ready) (source : Address) :
    (m.adopt source).Ready ∧ (m.adopt source).unlinked = m.unlinked := by
  have hadded := h.addLink (.new source m.maxFrame) false
  obtain ⟨hready, -⟩ := hadded.cellOf source
  have hsame : ((m.addLink (.new source m.maxFrame) false).1.cellOf source).1.unlinked =
      m.unlinked := unlinked_cellOf _ source
  have hoffers : ((m.addLink (.new source m.maxFrame) false).1.cellOf source).1.Offers
      m.connections.length := by
    rw [Manager.cellOf]
    split <;> exact h.offers_addLink source false
  rw [Manager.adopt]
  dsimp only
  split
  · exact ⟨hready.setCell _ hoffers, hsame⟩
  · exact ⟨hready, hsame⟩

/-- A call that has a link that can be used answers it. -/
theorem run_inspect (hlink : m.Offers link) (tries : Nat) (destination : Address) :
    (Dial.inspect tries link).run (.ok ()) destination m = (m, .ok link) := by
  have hinspect : (Dial.inspect tries link).step? (.ok ()) destination m =
      some (m, .answered (.ok link)) := by rw [Dial.step?, if_pos hlink.isOpen]
  rw [Dial.run_of_step? hinspect, Dial.run_answered]

/-- A call whose cell is empty opens a connection and puts its link there. -/
theorem run_wait_of_empty (h : m.Ready) (hempty : m.cells[cell]? = some .empty) (tries : Nat)
    (destination : Address) : (Dial.wait tries cell).run (.ok ()) destination m =
      ((m.addLink (.new destination m.maxFrame) true).1.setCell cell (.full m.connections.length),
        .ok m.connections.length) := by
  have hwait : (Dial.wait tries cell).step? (.ok ()) destination m =
      some (m.setCell cell .opening, .connect tries cell) := by rw [Dial.step?, hempty]
  have hconnect : (Dial.connect tries cell).step? (.ok ()) destination (m.setCell cell .opening) =
      some (((m.setCell cell .opening).addLink (.new destination m.maxFrame) true).1,
        .store tries cell m.connections.length) := by
    rw [Dial.step?]
    dsimp only [Except.bind, Manager.setCell]
    rw [Link.opened_of_room destination h.room]
    rfl
  have hstore : (Dial.store tries cell m.connections.length).step? (.ok ()) destination
      ((m.setCell cell .opening).addLink (.new destination m.maxFrame) true).1 =
        some ((m.addLink (.new destination m.maxFrame) true).1.setCell cell
          (.full m.connections.length), .inspect tries m.connections.length) := by
    rw [Dial.step?]
    simp only [Manager.setCell, Manager.addLink, List.set_set]
    rfl
  have hlink : ((m.addLink (.new destination m.maxFrame) true).1.setCell cell
      (.full m.connections.length)).Offers m.connections.length :=
    h.offers_addLink destination true
  rw [Dial.run_of_step? hwait, Dial.run_of_step? hconnect, Dial.run_of_step? hstore,
    run_inspect hlink]

/-- A call that has found its cell gets the link of the cell, or opens one. -/
theorem run_wait (h : m.Ready) (hcell : m.Serves cell) (tries : Nat) (destination : Address) :
    ∃ n link, (Dial.wait tries cell).run (.ok ()) destination m = (n, .ok link) ∧ n.Ready ∧
      n.unlinked = m.unlinked ∧ n.Offers link := by
  obtain hempty | ⟨link, hfull, hoffers⟩ := hcell
  · have hadded := h.addLink (.new destination m.maxFrame) true
    have hoffers := h.offers_addLink destination true
    exact ⟨_, _, h.run_wait_of_empty hempty tries destination, hadded.setCell cell hoffers, rfl,
      hoffers⟩
  · refine ⟨m, link, ?_, h, rfl, hoffers⟩
    have hwait : (Dial.wait tries cell).step? (.ok ()) destination m =
        some (m, .inspect tries link) := by rw [Dial.step?, hfull]
    rw [Dial.run_of_step? hwait, run_inspect hoffers]

/-- A call for a link to an address where somebody listens gets one that can be used. -/
theorem dial (h : m.Ready) {reach : Address → Except TransportError Unit}
    (hreach : reach destination = .ok ()) :
    ∃ n link, m.dial reach destination = (n, .ok link) ∧ n.Ready ∧ n.unlinked = m.unlinked ∧
      n.Offers link := by
  have hcheck : Dial.start.step? (.ok ()) destination m = some (m, .look 1) := by
    rw [Dial.start, Dial.step?, h.live]
    rfl
  have hlook : (Dial.look 1).step? (.ok ()) destination m =
      some ((m.cellOf destination).1, .wait 1 (m.cellOf destination).2) := rfl
  obtain ⟨hready, hserves⟩ := h.cellOf destination
  obtain ⟨n, link, hrun, hn, hsame, hoffers⟩ := hready.run_wait hserves 1 destination
  refine ⟨n, link, ?_, hn, hsame.trans (unlinked_cellOf m destination), hoffers⟩
  rw [Manager.dial, hreach, Dial.run_of_step? hcheck, Dial.run_of_step? hlook, hrun]

/-- Only the length of a frame decides whether it can be sent over a link that can be used. -/
theorem send_eq (h : m.Ready) (hlink : m.Offers link) (frame : Bytes) :
    ∃ n : Manager ω, n.Ready ∧ n.unlinked = m.unlinked ∧ m.send link frame =
      if m.maxFrame < frame.length then .error (.frameTooLarge frame.length m.maxFrame)
      else .ok n := by
  obtain ⟨l, hl, husable⟩ := hlink
  have hsent : ({ l with queue := l.queue ++ [frame] } : Link).Usable m.maxFrame :=
    ⟨husable.closed, husable.writer, husable.maxFrame_eq⟩
  refine ⟨m.modifyLink link fun _ => { l with queue := l.queue ++ [frame] }, ⟨h.live,
    h.uncancelled, h.room, fun hcell => ?_⟩, rfl, ?_⟩
  · exact (h.serves hcell).imp_right fun ⟨other, hfull, hoffers⟩ =>
      ⟨other, hfull, hoffers.modifyLink hsent link⟩
  · rw [Manager.send, hl]
    dsimp only
    rw [husable.send_eq]
    split <;> rfl

end Ready

end Manager

end Collective
