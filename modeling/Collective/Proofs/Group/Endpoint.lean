import Collective.Group.Client
import Collective.Proofs.Group.Sequence
import Collective.Proofs.Group.Stability

/-!
# Factories of endpoints

A task makes its end of an operator by the factory for its side. Three descriptions have to agree
there: the operator says of which kind it is and which task is its root, the task's place says which
role it has and whether it has a parent, and the factory expects a kind and a role. In a bundle that
a coordinator hands out they do. So of the two factories for the sides of an operator one succeeds
and one is refused, and an endpoint has a parent exactly if its calls turn to one.
-/

namespace Collective

/-! ## Codecs of a type -/

/-- The kinds of codecs that carry values of a type. -/
def PayloadType.carriers : PayloadType → List CodecKind
  | .numeric .i64 => [.json, .integer]
  | .numeric .f32 | .numeric .f64 => [.json, .double]
  | .numeric _ | .bool | .list _ => [.json]
  | .string => [.json, .utf8]
  | .bytes => [.bytes]

theorem PayloadType.exists_codec {type : PayloadType} {kind : CodecKind}
    (h : kind ∈ type.carriers) : ∃ codec, type.codec kind = .ok codec := by
  cases type with
  | numeric type => cases type <;> cases kind <;> simp_all [carriers, codec]
  | _ => cases kind <;> simp_all [carriers, codec]

theorem PayloadType.codec_of_not_mem_carriers {type : PayloadType} {kind : CodecKind}
    (h : kind ∉ type.carriers) :
    type.codec kind = .error (.unsupported kind.name type.qualifiedName) := by
  cases type with
  | numeric type => cases type <;> cases kind <;> simp_all [carriers, codec]
  | _ => cases kind <;> simp_all [carriers, codec]

/-! ## Places that agree with their operators -/

/-- Every place in a bundle has the role that the operator gives the bundle's task, and a parent
exactly if the task is not the root. -/
def Bundle.Coherent (b : Bundle) : Prop :=
  ∀ name view, b.operators.get? name = some view →
    view.place.role = view.spec.roleOf b.task ∧
      (view.place.parent = none ↔ b.task = view.spec.root)

/-- The bundles that a coordinator hands out are coherent. -/
theorem Coordinator.InStep.coherent {c : Coordinator} (h : c.InStep) {task : String} {b : Bundle}
    (hb : c.bundle task = .ok b) : b.Coherent := by
  obtain ⟨hmem, hwaiting⟩ := h.waiting_of_bundle hb
  rw [h.bundle_eq hwaiting hmem] at hb
  obtain rfl := Except.ok.inj hb
  intro name view hview
  rw [Table.get?_mapValues] at hview
  obtain ⟨t, ht, rfl⟩ := Option.map_eq_some_iff.1 hview
  have hentry := Table.mem_of_get? ht
  obtain ⟨hheap, -, -, hmembers⟩ := h.heap hentry
  have hroot := h.waiting_eq_nil_iff.1 hwaiting name t hentry
  exact ⟨rfl, hheap.parentOf_eq_none_iff hroot (by rwa [hmembers])⟩

theorem Bundle.get?_specs (b : Bundle) (name : String) :
    b.specs.get? name = (b.operators.get? name).map (·.spec) :=
  Table.get?_mapValues ..

theorem Client.bundle_of_join {b : Bundle} {manager : Manager Unit} {limit : Option Nat}
    {names names' : Registry} {client : Client}
    (h : join b manager limit names = .ok (client, names')) : client.bundle = b := by
  rw [join] at h
  split at h
  · cases h
  · obtain ⟨rfl, -⟩ := Prod.mk.inj (Except.ok.inj h)
    rfl

/-! ## Factories -/

/-- The factories of endpoints for values of a type. The built-in functions reduce numbers, and
lists are scattered. -/
inductive Factory : PayloadType → Type where
  | broadcastSender (type : PayloadType) : Factory type
  | broadcastReceiver (type : PayloadType) : Factory type
  | reduceSender (type : NumericType) : Factory (.numeric type)
  | reduceReceiver (type : NumericType) : Factory (.numeric type)
  | reduceSenderWith (type : PayloadType) : Factory type
  | reduceReceiverWith (type : PayloadType) : Factory type
  | scatterSender (element : ElementType) : Factory (.list element)
  | scatterReceiver (element : ElementType) : Factory (.list element)

namespace Factory

variable {type : PayloadType}

/-- The endpoint that a factory makes. -/
def make (b : Bundle) (name : String) :
    {type : PayloadType} → Factory type → Except GroupError (Endpoint type.Carrier)
  | _, broadcastSender type => b.broadcastSender type name
  | _, broadcastReceiver type => b.broadcastReceiver type name
  | _, reduceSender type => (b.reduceSender type name).map (·.1)
  | _, reduceReceiver type => (b.reduceReceiver type name).map (·.1)
  | _, reduceSenderWith type => b.reduceSenderWith type name
  | _, reduceReceiverWith type => b.reduceReceiverWith type name
  | _, scatterSender element => b.scatterSender element name
  | _, scatterReceiver element => b.scatterReceiver element name

/-- The kind of operator to which a factory belongs. -/
def kind : Factory type → OperatorKind
  | broadcastSender _ | broadcastReceiver _ => .broadcast
  | reduceSender _ | reduceReceiver _ | reduceSenderWith _ | reduceReceiverWith _ => .reduce
  | scatterSender _ | scatterReceiver _ => .scatter

/-- The factory makes the end that the root has. -/
def atRoot : Factory type → Bool
  | broadcastSender _ | scatterSender _ | reduceReceiver _ | reduceReceiverWith _ => true
  | broadcastReceiver _ | scatterReceiver _ | reduceSender _ | reduceSenderWith _ => false

/-- The factory for the other side. -/
def counterpart : {type : PayloadType} → Factory type → Factory type
  | _, broadcastSender type => broadcastReceiver type
  | _, broadcastReceiver type => broadcastSender type
  | _, reduceSender type => reduceReceiver type
  | _, reduceReceiver type => reduceSender type
  | _, reduceSenderWith type => reduceReceiverWith type
  | _, reduceReceiverWith type => reduceSenderWith type
  | _, scatterSender element => scatterReceiver element
  | _, scatterReceiver element => scatterSender element

/-- The role of a task that may use the factory. -/
def role : Factory type → Role
  | broadcastSender _ | reduceSender _ | reduceSenderWith _ | scatterSender _ => .sender
  | broadcastReceiver _ | reduceReceiver _ | reduceReceiverWith _ | scatterReceiver _ => .receiver

/-- The error for a task on the other side. -/
def otherSide (task name : String) : Factory type → GroupError
  | broadcastSender _ | scatterSender _ | reduceReceiver _ | reduceReceiverWith _ =>
    .notRoot task name
  | broadcastReceiver _ | scatterReceiver _ => .notReceiver task name
  | reduceSender _ | reduceSenderWith _ => .notSender task name

/-- Why a factory makes no endpoint for a task, given the operator of that name. -/
def refusal? (factory : Factory type) (spec? : Option OperatorSpec) (task name : String) :
    Option GroupError :=
  match spec? with
  | none => some (.unknownOperator name)
  | some spec =>
    if spec.kind ≠ factory.kind then some (.wrongKind name factory.kind spec.kind)
    else if spec.codec ∉ type.carriers then
      some (.serialization (.unsupported spec.codec.name type.qualifiedName))
    else if factory.atRoot ≠ decide (task = spec.root) then some (factory.otherSide task name)
    else none

theorem kind_counterpart (factory : Factory type) : factory.counterpart.kind = factory.kind := by
  cases factory <;> rfl

theorem atRoot_counterpart (factory : Factory type) :
    factory.counterpart.atRoot = !factory.atRoot := by
  cases factory <;> rfl

/-- The root has the role for the root's end, and nobody else has. -/
theorem roleOf_eq_role_iff (factory : Factory type) {spec : OperatorSpec}
    (hkind : spec.kind = factory.kind) (task : String) :
    spec.roleOf task = factory.role ↔ factory.atRoot = decide (task = spec.root) := by
  by_cases hroot : task = spec.root <;>
    cases factory <;> simp_all [OperatorSpec.roleOf, kind, role, atRoot]

end Factory

/-! ## Endpoints that are refused -/

namespace Bundle

variable {b : Bundle} {type : PayloadType} {name : String} {kind : OperatorKind} {role : Role}
  {otherwise : GroupError} {view : OperatorView}

theorem endpoint_of_unknown (h : b.operators.get? name = none) :
    b.endpoint type name kind role otherwise = .error (.unknownOperator name) := by
  simp [endpoint, Bundle.view, operator, h, bind, Except.bind]

theorem endpoint_of_kind_ne (h : b.operators.get? name = some view) (hkind : view.spec.kind ≠ kind) :
    b.endpoint type name kind role otherwise = .error (.wrongKind name kind view.spec.kind) := by
  simp [endpoint, Bundle.view, operator, h, hkind, bind, Except.bind]

theorem endpoint_of_not_carried (h : b.operators.get? name = some view)
    (hcarried : view.spec.codec ∉ type.carriers) :
    b.endpoint type name view.spec.kind role otherwise =
      .error (.serialization (.unsupported view.spec.codec.name type.qualifiedName)) := by
  simp [endpoint, view_eq h, PayloadType.codec_of_not_mem_carriers hcarried, bind, Except.bind]

theorem kind_of_view (h : b.view name kind = .ok view) : view.spec.kind = kind := by
  rw [Bundle.view] at h
  split at h
  · cases h
  · split at h
    · next hkind =>
      obtain rfl := Except.ok.inj h
      exact hkind
    · cases h

end Bundle

theorem OperatorSpec.exists_reduction {spec : OperatorSpec} (hkind : spec.kind = .reduce) :
    ∃ function, spec.reduction? = some function := by
  rw [kind] at hkind
  cases hpurpose : spec.purpose with
  | reduce function => exact ⟨function, by rw [reduction?, hpurpose]⟩
  | _ => simp [hpurpose] at hkind

/-- A function is known for every reduction, and looking it up fails as making the endpoint does. So
the order of the two does not matter. -/
theorem Bundle.endpoint_of_reduction (b : Bundle) (type : PayloadType) (name : String) (role : Role)
    (otherwise : GroupError) :
    (do
      let function ← b.reduction name
      let endpoint ← b.endpoint type name .reduce role otherwise
      .ok (endpoint, function) : Except GroupError (Endpoint type.Carrier × Reduction)).map (·.1) =
    b.endpoint type name .reduce role otherwise := by
  cases hview : b.view name .reduce with
  | error e => simp [reduction, endpoint, hview, bind, Except.bind, Except.map]
  | ok view =>
    obtain ⟨function, hfunction⟩ := OperatorSpec.exists_reduction (kind_of_view hview)
    have hreduction : b.reduction name = .ok function := by
      simp [reduction, hview, hfunction, bind, Except.bind]
    rw [hreduction]
    cases b.endpoint type name .reduce role otherwise <;> rfl

namespace Factory

variable {type : PayloadType} {b : Bundle} {name : String} {e : GroupError}

theorem make_eq (factory : Factory type) (b : Bundle) (name : String) :
    factory.make b name =
      b.endpoint type name factory.kind factory.role (factory.otherSide b.task name) := by
  cases factory with
  | reduceSender type => exact b.endpoint_of_reduction (.numeric type) name ..
  | reduceReceiver type => exact b.endpoint_of_reduction (.numeric type) name ..
  | _ => rfl

/-- A factory whose call is refused gives the reason. -/
theorem make_of_refusal (factory : Factory type) (hb : b.Coherent)
    (h : factory.refusal? (b.specs.get? name) b.task name = some e) :
    factory.make b name = .error e := by
  rw [make_eq]
  rw [b.get?_specs] at h
  cases hview : b.operators.get? name with
  | none =>
    rw [hview] at h
    obtain rfl := Option.some.inj h
    exact Bundle.endpoint_of_unknown hview
  | some view =>
    rw [hview] at h
    simp only [refusal?, Option.map_some] at h
    -- The reasons in their order; behind each of them the check has been passed.
    obtain ⟨hkind, hreason⟩ | ⟨hkind, h⟩ := ite_eq_iff.1 h
    · obtain rfl := Option.some.inj hreason
      exact Bundle.endpoint_of_kind_ne hview hkind
    rw [not_not] at hkind
    rw [← hkind]
    obtain ⟨hcarried, hreason⟩ | ⟨hcarried, h⟩ := ite_eq_iff.1 h
    · obtain rfl := Option.some.inj hreason
      exact Bundle.endpoint_of_not_carried hview hcarried
    obtain ⟨codec, hcodec⟩ := PayloadType.exists_codec (not_not.1 hcarried)
    obtain ⟨hside, hreason⟩ | ⟨-, h⟩ := ite_eq_iff.1 h
    · obtain rfl := Option.some.inj hreason
      rw [Bundle.endpoint_eq hview hcodec, (hb name view hview).1,
        if_neg (mt (factory.roleOf_eq_role_iff hkind _).1 hside)]
    · cases h

/-- The calls that are not refused. -/
theorem refusal?_eq_none_iff (factory : Factory type) {spec? : Option OperatorSpec}
    {task name : String} :
    factory.refusal? spec? task name = none ↔
      ∃ spec, spec? = some spec ∧ spec.kind = factory.kind ∧ spec.codec ∈ type.carriers ∧
        factory.atRoot = decide (task = spec.root) := by
  cases spec? with
  | none => simp [refusal?]
  | some spec =>
    simp only [refusal?, Option.some.injEq, exists_eq_left']
    grind

/-- A factory whose call is not refused makes an endpoint, which has no parent exactly if it is the
root's. -/
theorem make_of_accepted (factory : Factory type) (hb : b.Coherent)
    (h : factory.refusal? (b.specs.get? name) b.task name = none) :
    ∃ endpoint, factory.make b name = .ok endpoint ∧
      (endpoint.place.parent = none ↔ factory.atRoot = true) := by
  obtain ⟨spec, hspec, hkind, hcarried, hside⟩ := factory.refusal?_eq_none_iff.1 h
  rw [b.get?_specs] at hspec
  obtain ⟨view, hview, rfl⟩ := Option.map_eq_some_iff.1 hspec
  obtain ⟨hrole, hparent⟩ := hb name view hview
  obtain ⟨codec, hcodec⟩ := PayloadType.exists_codec hcarried
  rw [make_eq, ← hkind, Bundle.endpoint_eq hview hcodec, hrole,
    if_pos ((factory.roleOf_eq_role_iff hkind _).2 hside)]
  refine ⟨_, rfl, hparent.trans ?_⟩
  rw [hside, decide_eq_true_eq]

theorem make_eq_error_iff (factory : Factory type) (hb : b.Coherent) :
    factory.make b name = .error e ↔
      factory.refusal? (b.specs.get? name) b.task name = some e := by
  refine ⟨?_, factory.make_of_refusal hb⟩
  intro hmake
  cases hrefusal : factory.refusal? (b.specs.get? name) b.task name with
  | some reason =>
    rw [factory.make_of_refusal hb hrefusal] at hmake
    rw [Except.error.inj hmake]
  | none =>
    obtain ⟨endpoint, hendpoint, -⟩ := factory.make_of_accepted hb hrefusal
    rw [hendpoint] at hmake
    cases hmake

theorem exists_make_iff (factory : Factory type) (hb : b.Coherent) :
    (∃ endpoint, factory.make b name = .ok endpoint) ↔
      factory.refusal? (b.specs.get? name) b.task name = none := by
  constructor
  · rintro ⟨endpoint, hendpoint⟩
    rw [Option.eq_none_iff_forall_ne_some]
    intro e hrefusal
    rw [factory.make_of_refusal hb hrefusal] at hendpoint
    cases hendpoint
  · intro hrefusal
    obtain ⟨endpoint, hendpoint, -⟩ := factory.make_of_accepted hb hrefusal
    exact ⟨endpoint, hendpoint⟩

/-- Of the two factories for the sides of an operator one succeeds and one does not. -/
theorem exists_make_iff_not_counterpart (factory : Factory type) (hb : b.Coherent)
    {spec : OperatorSpec} (hspec : b.specs.get? name = some spec)
    (hkind : spec.kind = factory.kind) (hcarried : spec.codec ∈ type.carriers) :
    (∃ endpoint, factory.make b name = .ok endpoint) ↔
      ¬ ∃ endpoint, factory.counterpart.make b name = .ok endpoint := by
  rw [exists_make_iff _ hb, exists_make_iff _ hb, refusal?_eq_none_iff, refusal?_eq_none_iff, hspec]
  simp [hkind, hcarried, kind_counterpart, atRoot_counterpart]

/-- Every endpoint that a client makes from the bundle of its coordinator is one for the task's side:
a factory is refused, for the first of the four reasons that there is, or succeeds. What it makes has
a parent if it is not the root's, so that no call of it lacks one, and has none if it is. And of the
factories for the two sides of an operator whose codec carries the type exactly one succeeds. -/
theorem make_matches_role {group task : String} {fanOut : Nat} {c : Coordinator} {b : Bundle}
    (hc : Coordinator.Reachable group fanOut c) (hb : c.bundle task = .ok b)
    {manager : Manager Unit} {limit : Option Nat} {names names' : Registry} {client : Client}
    (hjoin : Client.join b manager limit names = .ok (client, names'))
    (factory : Factory type) (name : String) :
    (∀ e, factory.make client.bundle name = .error e ↔
      factory.refusal? (b.specs.get? name) task name = some e) ∧
    (∀ endpoint, factory.make client.bundle name = .ok endpoint →
      (factory.atRoot = true → endpoint.place.parent = none) ∧
      (factory.atRoot = false → ∃ parent, endpoint.place.parent = some parent ∧
        ∀ {β : Type} (call : String → Call type.Carrier β),
          endpoint.withParent call = call parent)) ∧
    ∀ spec, b.specs.get? name = some spec → spec.kind = factory.kind →
      spec.codec ∈ type.carriers →
        ((∃ endpoint, factory.make client.bundle name = .ok endpoint) ↔
          ¬ ∃ endpoint, factory.counterpart.make client.bundle name = .ok endpoint) := by
  obtain ⟨hstep, -⟩ := hc.inStep
  obtain rfl := Client.bundle_of_join hjoin
  have hcoherent := hstep.coherent hb
  obtain ⟨-, rfl, -⟩ := Coordinator.fields_of_bundle hb
  refine ⟨fun e => factory.make_eq_error_iff hcoherent, ?_, ?_⟩
  · intro endpoint hendpoint
    obtain ⟨made, hmade, hroot⟩ :=
      factory.make_of_accepted hcoherent ((factory.exists_make_iff hcoherent).1 ⟨_, hendpoint⟩)
    obtain rfl := Except.ok.inj (hendpoint.symm.trans hmade)
    refine ⟨hroot.2, ?_⟩
    intro hbelow
    have hparent : endpoint.place.parent ≠ none := by
      rw [ne_eq, hroot, hbelow]
      exact Bool.false_ne_true
    obtain ⟨parent, hparent⟩ := Option.ne_none_iff_exists'.1 hparent
    refine ⟨parent, hparent, ?_⟩
    intro β call
    rw [Endpoint.withParent, hparent]
  · intro spec hspec hkind hcarried
    exact factory.exists_make_iff_not_counterpart hcoherent hspec hkind hcarried

namespace Late

/-! The root of a reduction is replaced, and rejoins behind the others. -/

def coordinator : Coordinator :=
  .after ⟨"g", 1, 0, [], .empty⟩ [.operator "sum" ⟨.reduce .sum, "R", .integer, .whole⟩,
    .member (.add "R"), .member (.add "A"), .member (.replace "R" "B"), .member (.add "R")]

def bundle : Bundle := (coordinator.bundle "A").toOption.get (by decide +kernel)

def joined : Client × Registry :=
  (Client.join bundle (.new (some (Session.localHome ["A"] "A")) 1024) none .empty).toOption.get
    (by decide +kernel)

/-- The task makes its end of the reduction for the one type that the codec carries, and is refused
the other end. -/
theorem make_matches_role_late_root : Coordinator.Reachable "g" 1 coordinator ∧
    coordinator.bundle "A" = .ok bundle ∧
    Client.join bundle (.new (some (Session.localHome ["A"] "A")) 1024) none .empty = .ok joined ∧
    (∃ endpoint, (reduceSender .i64).make joined.1.bundle "sum" = .ok endpoint ∧
      ∃ parent, endpoint.place.parent = some parent) ∧
    (reduceReceiver .i64).make joined.1.bundle "sum" = .error (.notRoot "A" "sum") ∧
    (reduceReceiver .f64).make joined.1.bundle "sum" =
      .error (.serialization (.unsupported "integer" "f64")) := by
  have hc : Coordinator.Reachable "g" 1 coordinator := ⟨_, _, rfl, rfl⟩
  have hb : coordinator.bundle "A" = .ok bundle := by decide +kernel
  have hjoin : Client.join bundle (.new (some (Session.localHome ["A"] "A")) 1024) none .empty =
      .ok joined := by decide +kernel
  have hspec : bundle.specs.get? "sum" = some ⟨.reduce .sum, "R", .integer, .whole⟩ := by
    decide +kernel
  obtain ⟨-, hmade, hone⟩ := make_matches_role hc hb hjoin (reduceSender .i64) "sum"
  obtain ⟨hrefused, -, -⟩ := make_matches_role hc hb hjoin (reduceReceiver .i64) "sum"
  obtain ⟨hunsupported, -, -⟩ := make_matches_role hc hb hjoin (reduceReceiver .f64) "sum"
  have hreceiver := (hrefused (.notRoot "A" "sum")).2 (by rw [hspec]; decide)
  refine ⟨hc, hb, hjoin, ?_, hreceiver, ?_⟩
  · obtain ⟨endpoint, hendpoint⟩ := (hone _ hspec rfl (by decide)).2 fun ⟨endpoint, hother⟩ =>
      nomatch hother.symm.trans hreceiver
    obtain ⟨parent, hparent, -⟩ := (hmade endpoint hendpoint).2 rfl
    exact ⟨endpoint, hendpoint, parent, hparent⟩
  · exact (hunsupported _).2 (by rw [hspec]; decide)

end Late

end Factory

end Collective
