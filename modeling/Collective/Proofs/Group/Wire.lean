import Collective.Group.Wire
import Collective.Proofs.Group.Progress
import Collective.Proofs.Manager.Ready

/-!
# Sending over links

A client whose manager is ready sends over links what it sends in a `System`, as long as its frames
are short enough: it gets a link, and the frame joins the queue of the link. So a run over links is
a run of the `System` that is left when the links are taken away (`unlinked_of_reachable`), and
where that one can go on, so can the run over links.
-/

namespace Collective

/-! ## Clients -/

namespace Client

variable {c d : Client} {names : Registry} {parcel : Parcel}

/-- The client without the links of its manager. -/
def unlinked (c : Client) : Client := { c with manager := c.manager.unlinked }

theorem unlinked_withManager {n : Manager Unit} (h : n.unlinked = c.manager.unlinked) :
    ({ c with manager := n } : Client).unlinked = c.unlinked :=
  congrArg (fun manager => ({ c with manager } : Client)) h

theorem unlinked_route (c : Client) (m : Message) :
    (c.route m).unlinked = c.unlinked.route m := by
  rw [route, apply_ite unlinked]
  rfl

theorem unlinked_hear (c : Client) (source : Address) (m : Message) :
    (c.hear source m).unlinked = c.unlinked.hear source m := by
  have hfold : ∀ (observers : List Unit) (c : Client),
      (observers.foldl (fun c _ => c.route m) c).unlinked =
        observers.foldl (fun c _ => c.route m) c.unlinked := by
    intro observers
    induction observers with
    | nil => exact fun _ => rfl
    | cons observer rest ih =>
      intro c
      rw [List.foldl_cons, ih, unlinked_route]
      rfl
  exact hfold _ c

theorem pop?_unlinked (c : Client) (queue : Nat) :
    c.unlinked.pop? queue = (c.pop? queue).map fun (d, m) => (d.unlinked, m) := by
  rw [pop?, pop?]
  show (c.mailboxes.pop? queue).map _ = _
  rw [Option.map_map]
  rfl

theorem lookup_of_resolve {address : Address} {destination : String}
    (h : c.resolve names destination = .ok address) : names.lookup destination = .ok address := by
  rw [resolve] at h
  split at h
  · cases h
  · cases hlookup : names.lookup destination with
    | error e =>
      rw [hlookup] at h
      cases h
    | ok other =>
      rw [hlookup] at h
      exact congrArg _ (Except.ok.inj h)

theorem send_of_resolve_error {e : GroupError} (h : c.resolve names parcel.destination = .error e)
    (reach : Address → Except TransportError Unit) (operator : String) :
    c.send reach names operator parcel = (c, .error e) := by
  rw [send, h]

/-- A client whose manager is ready sends everything but frames that are too long. -/
theorem send_eq_of_ready (operator : String) (hready : c.manager.Ready) {address : Address}
    (hresolve : c.resolve names parcel.destination = .ok address)
    {reach : Address → Except TransportError Unit} (hreach : reach address = .ok ()) :
    ∃ d : Client, d.manager.Ready ∧ d.unlinked = c.unlinked ∧
      c.send reach names operator parcel =
        (d, if c.manager.maxFrame < (c.stamp operator parcel).frame.length then
            .error (.transport (.frameTooLarge (c.stamp operator parcel).frame.length
              c.manager.maxFrame))
          else .ok ()) := by
  obtain ⟨n, link, hdial, hn, hsame, hoffers⟩ := hready.dial hreach
  obtain ⟨sent, hsent, hleft, hsend⟩ := hn.send_eq hoffers (c.stamp operator parcel).frame
  have hmax : n.maxFrame = c.manager.maxFrame := congrArg (·.maxFrame) hsame
  rw [hmax] at hsend
  have hpost : ({ c with manager := n } : Client).post link
      (({ c with manager := n } : Client).stamp operator parcel) =
        (n.send link (c.stamp operator parcel).frame).map fun manager => { c with manager } := rfl
  rw [send, hresolve]
  dsimp only
  rw [hdial]
  dsimp only
  rw [hpost, hsend]
  by_cases hlong : c.manager.maxFrame < (c.stamp operator parcel).frame.length
  · rw [if_pos hlong]
    exact ⟨{ c with manager := n }, hn, unlinked_withManager hsame, by rw [if_pos hlong]; rfl⟩
  · rw [if_neg hlong]
    exact ⟨{ c with manager := sent }, hsent, unlinked_withManager (hleft.trans hsame),
      by rw [if_neg hlong]; rfl⟩

end Client

namespace System

variable {β : Type} {s t u : System β} {number i : Nat} {c d : Client}

/-! ## Systems without links -/

/-- The system without the links of its clients. -/
def unlinked (s : System β) : System β :=
  { s with session := { s.session with clients := s.session.clients.map Client.unlinked } }

theorem client?_unlinked (s : System β) (i : Nat) :
    s.unlinked.client? i = (s.client? i).map Client.unlinked :=
  List.getElem?_map

theorem unlinked_putClient (s : System β) (i : Nat) (c : Client) :
    (s.putClient i c).unlinked = s.unlinked.putClient i c.unlinked := by
  rw [unlinked, putClient, Session.put, List.map_set]
  rfl

/-- Only the links of a client change. -/
theorem unlinked_putClient_self (hc : s.client? i = some c) (hsame : d.unlinked = c.unlinked) :
    (s.putClient i d).unlinked = s.unlinked := by
  have hclient : s.unlinked.session.clients[i]? = some c.unlinked :=
    (client?_unlinked s i).trans (congrArg _ hc)
  obtain ⟨hlt, hget⟩ := List.getElem?_eq_some_iff.1 hclient
  rw [unlinked_putClient, hsame, putClient, Session.put, ← hget, List.set_getElem_self]

theorem listener?_unlinked (s : System β) (address : Address) :
    s.unlinked.listener? address = s.listener? address := by
  rw [listener?, listener?]
  show (s.session.clients.map Client.unlinked).findIdx? _ = _
  rw [List.findIdx?_map]
  rfl

/-- Scripts do not look at links. -/
theorem follows_unlinked {script : Nat → List (Job β)} {event : Event β} :
    s.unlinked.Follows script event ↔ s.Follows script event := by
  cases event <;> exact Iff.rfl

/-! ## One step -/

/-- The manager of every client is ready. -/
def Wired (s : System β) : Prop := ∀ c ∈ s.session.clients, c.manager.Ready

theorem Wired.ready (h : s.Wired) (hc : s.client? i = some c) : c.manager.Ready :=
  h c (List.mem_of_getElem? hc)

theorem Wired.putClient (h : s.Wired) (hd : d.manager.Ready) : (s.putClient i d).Wired := by
  intro e he
  obtain he | rfl := List.mem_or_eq_of_mem_set he
  · exact h e he
  · exact hd

/-- Somebody listens at every address that the name service has. -/
def Answers (s : System β) : Prop :=
  ∀ {task : String} {address : Address}, s.session.names.lookup task = .ok address →
    ∃ receiver, s.listener? address = some receiver

theorem WellFormed.answers {tasks : List String} {group : String} {epoch : UInt64}
    (h : s.WellFormed tasks group epoch) : s.Answers := by
  intro task address hlookup
  have hmem := h.connected.mem_of_lookup task address hlookup
  obtain ⟨d, hd, rfl⟩ := List.mem_map.1 hmem
  obtain ⟨i, hi⟩ := List.mem_iff_getElem?.1 hd
  obtain ⟨home, receiver, hresolve, hlistener, -⟩ := h.exists_listener hi (h.tasks_eq ▸ hmem)
  rw [Client.resolve, (h.connected.attends d hd).present, hlookup] at hresolve
  obtain rfl : address = home := Except.ok.inj hresolve
  exact ⟨receiver, hlistener⟩

theorem answers_unlinked : s.unlinked.Answers ↔ s.Answers := by
  rw [Answers, Answers]
  simp only [listener?_unlinked]
  rfl

theorem nextFrame?_eq {job : Job β} {parcel : Parcel} {rest : Call job.type.Carrier β}
    (hjob : s.jobs[number]? = some job) (hsent : job.call.sent? = some (parcel, rest))
    (hc : s.client? job.client = some c) :
    s.nextFrame? number = some ((c.stamp job.operator parcel).frame, c.manager.maxFrame) := by
  rw [nextFrame?, hjob]
  dsimp only [bind, Option.bind]
  rw [hsent]
  dsimp only
  rw [hc]

theorem not_lt_of_fits {job : Job β} {parcel : Parcel} {rest : Call job.type.Carrier β}
    (hjob : s.jobs[number]? = some job) (hsent : job.call.sent? = some (parcel, rest))
    (hc : s.client? job.client = some c) (hfits : s.fits (.send number) = true) :
    ¬ c.manager.maxFrame < (c.stamp job.operator parcel).frame.length := by
  rw [fits, nextFrame?_eq hjob hsent hc] at hfits
  exact Nat.not_lt.2 (of_decide_eq_true hfits)

theorem reach_eq_ok {address : Address} {receiver : Nat}
    (h : s.listener? address = some receiver) : s.reach address = .ok () := by
  rw [reach, h]
  rfl

/-- A send over a link leaves what a send without links does, as long as its frame is short
enough. -/
theorem send?_of_transmit? (hwired : s.Wired) (hanswers : s.Answers)
    (hfits : s.fits (.send number) = true) (ht : s.transmit? number = some t) :
    t.Wired ∧ s.unlinked.send? number = some t.unlinked := by
  obtain ⟨job, hjob, ht⟩ := Option.bind_eq_some_iff.1 ht
  obtain ⟨⟨parcel, rest⟩, hsent, ht⟩ := Option.bind_eq_some_iff.1 ht
  obtain ⟨c, hc, ht⟩ := Option.bind_eq_some_iff.1 ht
  have hclient : s.unlinked.client? job.client = some c.unlinked := by
    rw [client?_unlinked, hc, Option.map_some]
  have hjob' : s.unlinked.jobs[number]? = some job := hjob
  rw [send?, hjob']
  dsimp only [bind, Option.bind] at ht ⊢
  rw [hsent]
  dsimp only at ht ⊢
  rw [hclient]
  dsimp only
  cases hresolve : c.resolve s.session.names parcel.destination with
  | error e =>
    have herror : c.unlinked.resolve s.unlinked.session.names parcel.destination = .error e :=
      hresolve
    rw [Client.send_of_resolve_error hresolve] at ht
    obtain rfl := Option.some.inj ht
    rw [herror]
    refine ⟨hwired.putClient (hwired.ready hc), congrArg some ?_⟩
    exact congrArg (fun s => System.putJob s number (job.fail e))
      (unlinked_putClient_self hc rfl).symm
  | ok address =>
    have hok : c.unlinked.resolve s.unlinked.session.names parcel.destination = .ok address :=
      hresolve
    obtain ⟨receiver, hreceiver⟩ := hanswers (Client.lookup_of_resolve hresolve)
    obtain ⟨d, hd, hsame, hsend⟩ :=
      Client.send_eq_of_ready job.operator (hwired.ready hc) hresolve (reach_eq_ok hreceiver)
    rw [hsend, if_neg (not_lt_of_fits hjob hsent hc hfits), hresolve] at ht
    dsimp only [Except.toOption] at ht
    rw [hreceiver] at ht
    obtain rfl := Option.some.inj ht
    rw [hok]
    dsimp only
    rw [listener?_unlinked, hreceiver]
    refine ⟨hwired.putClient hd, congrArg some ?_⟩
    let letter : Letter := ⟨job.client, receiver, c.stamp job.operator parcel⟩
    exact congrArg (fun u : System β => { u.putJob number { job with call := rest } with
      transit := u.transit ++ [letter], sent := u.sent ++ [letter] })
      (unlinked_putClient_self hc hsame).symm

/-- What is done with something that has nothing to do with links. -/
theorem bind_unlinked {α : Type} (o : Option α) {f g : α → Option (System β)}
    (h : ∀ a, f a = (g a).map unlinked) : o.bind f = (o.bind g).map unlinked := by
  rw [Option.map_bind]
  exact Option.bind_congr fun a _ => h a

/-- What is done with a client. -/
theorem bind_client?_unlinked (s : System β) (i : Nat) {f g : Client → Option (System β)}
    (h : ∀ c, f c.unlinked = (g c).map unlinked) :
    (s.unlinked.client? i).bind f = ((s.client? i).bind g).map unlinked := by
  rw [client?_unlinked, Option.bind_map]
  exact bind_unlinked _ h

theorem hold?_unlinked (s : System β) (number : Nat) (source : String) :
    s.unlinked.hold? number source = (s.hold? number source).map unlinked := by
  refine bind_unlinked s.jobs[number]? fun job => bind_client?_unlinked s job.client fun c => ?_
  rw [apply_ite (Option.map unlinked)]
  refine if_congr Iff.rfl ?_ rfl
  exact congrArg (fun u : System β => some (u.putJob number _))
    (unlinked_putClient s job.client (c.openQueue ⟨job.operator, source⟩).1).symm

theorem take?_unlinked (s : System β) (number : Nat) (source : String) :
    s.unlinked.take? number source = (s.take? number source).map unlinked := by
  refine bind_unlinked s.jobs[number]? fun job => bind_unlinked (job.queue? source) fun queue =>
    bind_client?_unlinked s job.client fun c => ?_
  rw [Client.pop?_unlinked, Option.bind_eq_bind, Option.bind_map]
  refine bind_unlinked (c.pop? queue) fun (d, message) => ?_
  dsimp only [Function.comp]
  rw [← unlinked_putClient]
  cases message with
  | none => rfl
  | some m => exact bind_unlinked (job.call.take? job.passage source ⟨m.chunk, m.payload⟩) fun _ => rfl

theorem deliver?_unlinked (s : System β) (number : Nat) :
    s.unlinked.deliver? number = (s.deliver? number).map unlinked := by
  refine bind_unlinked s.transit[number]? fun letter =>
    bind_client?_unlinked s letter.receiver fun c =>
      bind_client?_unlinked s letter.sender fun d => bind_unlinked d.manager.home fun home => ?_
  rw [apply_ite (Option.map unlinked), ← Client.unlinked_hear, ← unlinked_putClient]
  rfl

/-- No other step of a call or a message looks at links. -/
theorem step?_unlinked {script : Nat → List (Job β)} {event : Event β}
    (hfollows : s.Follows script event) (hsend : ∀ number, event ≠ .send number) :
    s.unlinked.step? event = (s.step? event).map unlinked := by
  cases event with
  | begin job => rfl
  | send number => exact absurd rfl (hsend number)
  | hold number source => exact hold?_unlinked s number source
  | take number source => exact take?_unlinked s number source
  | giveUp number source => cases hfollows
  | deliver number => exact deliver?_unlinked s number
  | reconfigure client bundle => cases hfollows
  | install number => cases hfollows
  | shutdown task => cases hfollows

namespace Wired

theorem hold (h : s.Wired) {source : String} (ht : s.hold? number source = some t) : t.Wired := by
  obtain ⟨job, -, ht⟩ := Option.bind_eq_some_iff.1 ht
  obtain ⟨c, hc, ht⟩ := Option.bind_eq_some_iff.1 ht
  have hready := h.ready hc
  split at ht
  · obtain rfl := Option.some.inj ht
    exact h.putClient (d := (c.openQueue ⟨job.operator, source⟩).1) hready
  · cases ht

theorem take (h : s.Wired) {source : String} (ht : s.take? number source = some t) : t.Wired := by
  obtain ⟨job, -, ht⟩ := Option.bind_eq_some_iff.1 ht
  obtain ⟨queue, -, ht⟩ := Option.bind_eq_some_iff.1 ht
  obtain ⟨c, hc, ht⟩ := Option.bind_eq_some_iff.1 ht
  obtain ⟨⟨d, message⟩, hpop, ht⟩ := Option.bind_eq_some_iff.1 ht
  obtain ⟨⟨m, mailboxes⟩, -, hd⟩ := Option.map_eq_some_iff.1 hpop
  obtain ⟨rfl, -⟩ := Prod.mk.inj hd
  have hready := h.ready hc
  have hput : (s.putClient job.client { c with mailboxes }).Wired := h.putClient hready
  cases message with
  | none =>
    obtain rfl := Option.some.inj ht
    exact hput
  | some m =>
    obtain ⟨call, -, ht⟩ := Option.bind_eq_some_iff.1 ht
    obtain rfl := Option.some.inj ht
    exact hput

theorem deliver (h : s.Wired) (ht : s.deliver? number = some t) : t.Wired := by
  obtain ⟨letter, -, ht⟩ := Option.bind_eq_some_iff.1 ht
  obtain ⟨c, hc, ht⟩ := Option.bind_eq_some_iff.1 ht
  obtain ⟨d, -, ht⟩ := Option.bind_eq_some_iff.1 ht
  obtain ⟨home, -, ht⟩ := Option.bind_eq_some_iff.1 ht
  dsimp only at ht
  split at ht
  · cases ht
  · obtain rfl := Option.some.inj ht
    obtain ⟨mailboxes, hhear⟩ := Client.exists_hear_eq c home letter.message
    have hready := h.ready hc
    rw [hhear]
    exact h.putClient (d := { c with mailboxes }) hready

/-- Only sends use managers. -/
theorem step {script : Nat → List (Job β)} {event : Event β} (h : s.Wired)
    (hfollows : s.Follows script event) (hsend : ∀ number, event ≠ .send number)
    (ht : s.step? event = some t) : t.Wired := by
  cases event with
  | begin job =>
    obtain rfl := Option.some.inj ht
    exact h
  | send number => exact absurd rfl (hsend number)
  | hold number source => exact h.hold ht
  | take number source => exact h.take ht
  | giveUp number source => cases hfollows
  | deliver number => exact h.deliver ht
  | reconfigure client bundle => cases hfollows
  | install number => cases hfollows
  | shutdown task => cases hfollows

end Wired

theorem wireStep?_of_ne_send {event : Event β} (hsend : ∀ number, event ≠ .send number) :
    s.wireStep? event = s.step? event := by
  cases event with
  | send number => exact absurd rfl (hsend number)
  | _ => rfl

/-- The step lemma: a step over links is a step of the system without links, unless it sends a frame
that is too long. -/
theorem step?_of_wireStep? {script : Nat → List (Job β)} {event : Event β}
    (hwired : s.Wired) (hanswers : s.Answers) (hfollows : s.Follows script event)
    (hfits : s.fits event = true) (ht : s.wireStep? event = some t) :
    t.Wired ∧ s.unlinked.step? event = some t.unlinked := by
  by_cases hsend : ∃ number, event = .send number
  · obtain ⟨number, rfl⟩ := hsend
    exact send?_of_transmit? hwired hanswers hfits ht
  · have hother : ∀ number, event ≠ .send number := fun number he => hsend ⟨number, he⟩
    rw [wireStep?_of_ne_send hother] at ht
    exact ⟨hwired.step hfollows hother ht,
      by rw [step?_unlinked hfollows hother, ht, Option.map_some]⟩

/-! ## Runs -/

section Runs

variable {script : Nat → List (Job β)} {start : Session} {group : String} {epoch : UInt64}

/-- The run lemma: a run over links that follows a script is one of the system without links, as
long as all frames are short enough. -/
theorem unlinked_of_reachable (hstart : start.Connected group epoch)
    (hempty : ∀ c ∈ start.clients, c.mailboxes = .empty)
    (hready : ∀ c ∈ start.clients, c.manager.Ready ∧ c.unlinked = c)
    (hscript : ∀ i, ∀ job ∈ script i, job.held = [])
    (h : WireReachable (fun s event => s.Follows script event ∧ s.fits event = true)
      (.idle start) s) :
    s.Wired ∧ Reachable (Follows script) (.idle start) s.unlinked := by
  induction h with
  | start =>
    have hclients : start.clients.map Client.unlinked = start.clients :=
      (List.map_congr_left fun c hc => (hready c hc).2).trans (List.map_id _)
    have hsame : (idle start : System β).unlinked = .idle start := by
      rw [unlinked, idle, hclients]
    rw [hsame]
    exact ⟨fun c hc => (hready c hc).1, .start⟩
  | @step s t event _ hallowed ht ih =>
    obtain ⟨hwired, hrun⟩ := ih
    obtain ⟨hfollows, hfits⟩ := hallowed
    obtain ⟨history, htraced⟩ :=
      Traced.of_reachable hstart hempty hscript (keeps_of_follows False hrun)
    have hanswers : s.Answers := answers_unlinked.1 htraced.toWellFormed.answers
    obtain ⟨hnext, hstep⟩ := step?_of_wireStep? hwired hanswers hfollows hfits ht
    exact ⟨hnext, hrun.step (follows_unlinked.2 hfollows) hstep⟩
  | @adopt s client c source _ hc ih =>
    obtain ⟨hwired, hrun⟩ := ih
    obtain ⟨hadopted, hsame⟩ := (hwired.ready hc).adopt source
    refine ⟨hwired.putClient hadopted, ?_⟩
    rwa [unlinked_putClient_self hc (Client.unlinked_withManager hsame)]

/-- A chunk can be sent over a link, arrive or be taken, as soon as clients have got ready for
it. -/
def CanTransmit (script : Nat → List (Job β)) (s : System β) : Prop :=
  ∃ u event t, WireReachable (fun s event => s.Follows script event ∧ event.prepares) s u ∧
    event.communicates ∧ u.wireStep? event = some t

/-- Where a message can be sent, it can be sent over a link. -/
theorem exists_transmit? (h : s.unlinked.send? number = some u) :
    ∃ t, s.transmit? number = some t := by
  obtain ⟨job, hjob, h⟩ := Option.bind_eq_some_iff.1 h
  obtain ⟨⟨parcel, rest⟩, hsent, h⟩ := Option.bind_eq_some_iff.1 h
  obtain ⟨_, hclient, -⟩ := Option.bind_eq_some_iff.1 h
  rw [client?_unlinked] at hclient
  obtain ⟨c, hc, -⟩ := Option.map_eq_some_iff.1 hclient
  have hjob' : s.jobs[number]? = some job := hjob
  rw [transmit?, hjob']
  dsimp only [bind, Option.bind]
  rw [hsent]
  dsimp only
  rw [hc]
  dsimp only
  split
  · exact ⟨_, rfl⟩
  · exact ⟨_, rfl⟩

/-- Where a step is possible without links, it is possible over links. -/
theorem exists_wireStep? {event : Event β} (hfollows : s.unlinked.Follows script event)
    (h : s.unlinked.step? event = some u) : ∃ t, s.wireStep? event = some t := by
  by_cases hsend : ∃ number, event = .send number
  · obtain ⟨number, rfl⟩ := hsend
    exact exists_transmit? h
  · have hother : ∀ number, event ≠ .send number := fun number he => hsend ⟨number, he⟩
    rw [step?_unlinked (follows_unlinked.1 hfollows) hother] at h
    obtain ⟨t, ht, -⟩ := Option.map_eq_some_iff.1 h
    exact ⟨t, (wireStep?_of_ne_send hother).trans ht⟩

/-- Links are never in the way. -/
theorem CanMove.canTransmit (h : s.unlinked.CanMove script) : s.CanTransmit script := by
  obtain ⟨u, event, t, hready, hevent, ht⟩ := h
  obtain ⟨v, hv, rfl⟩ : ∃ v,
      WireReachable (fun s event => s.Follows script event ∧ event.prepares) s v ∧
        v.unlinked = u := by
    refine hready.induct (P := fun u => ∃ v, WireReachable _ s v ∧ v.unlinked = u)
      ⟨s, .start, rfl⟩ ?_
    rintro _ x event ⟨v, hv, rfl⟩ ⟨hfollows, hprepares⟩ hx
    -- getting ready sends nothing
    have hsend : ∀ number, event ≠ .send number := by
      rintro number rfl
      exact hprepares
    have hfollows' := follows_unlinked.1 hfollows
    rw [step?_unlinked hfollows' hsend] at hx
    obtain ⟨w, hw, rfl⟩ := Option.map_eq_some_iff.1 hx
    exact ⟨w, hv.step ⟨hfollows', hprepares⟩ ((wireStep?_of_ne_send hsend).trans hw), rfl⟩
  have hfollows : v.unlinked.Follows script event := by
    cases event <;> trivial
  obtain ⟨w, hw⟩ := exists_wireStep? hfollows ht
  exact ⟨v, event, w, hv, hevent, hw⟩

end Runs

end System

end Collective
