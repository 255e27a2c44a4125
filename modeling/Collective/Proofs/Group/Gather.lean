import Collective.Group.Endpoint
import Collective.Proofs.Group.Transfer

/-!
# Calls that take values

A call that takes one value from each of some tasks, in whatever order their chunks come, does what
depends on these values alone. `Stage` says how far it has come: it waits for values, or it has them
all and sends what they make it send.
-/

namespace Collective

/-- How a call ends once it has all values: what it sends, and its result. -/
structure Outcome (β : Type) where
  parcels : List Parcel
  result : Except GroupError β

/-- What is left of a call that only has to come to an outcome. -/
def Outcome.call {α β : Type} (o : Outcome β) : Call α β := .sendAll o.parcels (.finished o.result)

namespace Incoming

variable {α : Type} {p : Passage α} {source : String} {value : α} {value? : Option α} {j : Nat}

/-- What has come from a task after `j` chunks of the value that it sends, if it sends one. -/
def after (p : Passage α) (source : String) : Option α → (j : Nat) → Incoming α
  | none, _ => .underway (.from source)
  | some value, j =>
    if j = (p.wire value).length then .complete value else .underway (p.arrived source value j)

theorem after_zero (hp : p.converter.Lawful) (source : String) (value? : Option α) :
    after p source value? 0 = .underway (.from source) := by
  cases value? with
  | none => rfl
  | some value =>
    apply if_neg
    intro h
    exact p.wire_ne_nil hp value (List.length_eq_zero_iff.1 h.symm)

/-- A value is there once all of it has come. -/
theorem value?_after : (after p source value? j).value? = some value ↔
    value? = some value ∧ j = (p.wire value).length := by
  cases value? with
  | none => exact ⟨nofun, fun h => nomatch h.1⟩
  | some other =>
    rw [after]
    split
    · next hj =>
      constructor
      · rintro h
        obtain rfl := Option.some.inj h
        exact ⟨rfl, hj⟩
      · rintro ⟨h, -⟩
        exact h
    · next hj =>
      constructor
      · exact nofun
      · rintro ⟨h, hlength⟩
        obtain rfl := Option.some.inj h
        exact absurd hlength hj

theorem source_of_after {arrival : Arrival α} (h : after p source value? j = .underway arrival) :
    arrival.source = source := by
  cases value? with
  | none =>
    obtain rfl := Incoming.underway.inj h
    rfl
  | some value =>
    rw [after] at h
    split at h
    · cases h
    · obtain rfl := Incoming.underway.inj h
      rfl

end Incoming

namespace Call

variable {α β : Type} {p : Passage α} {source : String} {sources : List String}
  {chunk : Chunk Bytes}

/-! ## Taking chunks -/

/-- Only a task from which more has to come is taken from. -/
theorem exists_underway_of_gatherChunk {incoming : List (Incoming α)}
    {answer : Except GroupError (List (Incoming α))}
    (h : gatherChunk p source chunk incoming = some answer) :
    ∃ arrival, .underway arrival ∈ incoming ∧ arrival.source = source := by
  induction incoming generalizing answer with
  | nil => cases h
  | cons first rest ih =>
    cases first with
    | complete value =>
      obtain ⟨_, hrest, -⟩ := Option.map_eq_some_iff.1 h
      obtain ⟨arrival, hmem, hsource⟩ := ih hrest
      exact ⟨arrival, List.mem_cons_of_mem _ hmem, hsource⟩
    | underway arrival =>
      rw [gatherChunk] at h
      split at h
      · next hsource => exact ⟨arrival, List.mem_cons_self, hsource⟩
      · obtain ⟨_, hrest, -⟩ := Option.map_eq_some_iff.1 h
        obtain ⟨other, hmem, hsource⟩ := ih hrest
        exact ⟨other, List.mem_cons_of_mem _ hmem, hsource⟩

/-- A chunk from one of the tasks changes what has come from it, and nothing else. -/
theorem gatherChunk_eq (hnodup : sources.Nodup) {state : String → Incoming α}
    (hstate : ∀ other ∈ sources, ∀ arrival, state other = .underway arrival →
      arrival.source = other)
    (hmem : source ∈ sources) {arrival : Arrival α} (harrival : state source = .underway arrival) :
    gatherChunk p source chunk (sources.map state) =
      some ((((arrival.assembler.accept chunk.header).mapError .outOfOrder).bind
        fun assembler => arrival.absorb p assembler chunk).map
          fun new => sources.map (Function.update state source new)) := by
  induction sources with
  | nil => cases hmem
  | cons first rest ih =>
    obtain ⟨hfirst, hrest⟩ := List.nodup_cons.1 hnodup
    by_cases hsource : first = source
    · subst hsource
      have hother : ∀ new, rest.map (Function.update state first new) = rest.map state := by
        intro new
        apply List.map_congr_left
        rintro other hother
        apply Function.update_of_ne
        rintro rfl
        exact hfirst hother
      rw [List.map_cons, harrival, gatherChunk,
        if_pos (hstate first List.mem_cons_self arrival harrival)]
      simp only [List.map_cons, Function.update_self, hother]
      cases arrival.assembler.accept chunk.header with
      | error e => rfl
      | ok assembler => rfl
    · have hmem : source ∈ rest := (List.mem_cons.1 hmem).resolve_left (Ne.symm hsource)
      have hnext := ih hrest (fun other hother => hstate other (List.mem_cons_of_mem _ hother)) hmem
      simp only [List.map_cons, Function.update_of_ne hsource]
      cases hkind : state first with
      | complete value =>
        rw [gatherChunk, hnext, Option.map_some, except_map_map]
      | underway other =>
        have hother := hstate first List.mem_cons_self other hkind
        rw [gatherChunk, if_neg (by rwa [hother]), hnext, Option.map_some, except_map_map]

theorem gatherChunk_map (hnodup : sources.Nodup) {state : String → Incoming α}
    (hstate : ∀ other ∈ sources, ∀ arrival, state other = .underway arrival →
      arrival.source = other)
    (hmem : source ∈ sources) {arrival : Arrival α} (harrival : state source = .underway arrival)
    {assembler : Assembler} (haccept : arrival.assembler.accept chunk.header = .ok assembler)
    {new : Incoming α} (habsorb : arrival.absorb p assembler chunk = .ok new) :
    gatherChunk p source chunk (sources.map state) =
      some (.ok (sources.map (Function.update state source new))) := by
  rw [gatherChunk_eq hnodup hstate hmem harrival, haccept]
  exact congrArg (fun answer => some (Except.map _ answer)) habsorb

/-- The next chunk of the value of one of the tasks is taken. -/
theorem gatherChunk_after (hp : p.converter.Lawful) (hnodup : sources.Nodup)
    {values : String → Option α} {j : String → Nat} (hmem : source ∈ sources) {value : α}
    (hvalue : values source = some value) (hround : p.RoundTrips value)
    (hchunk : (p.wire value)[j source]? = some chunk) :
    gatherChunk p source chunk
        (sources.map fun other => .after p other (values other) (j other)) =
      some (.ok (sources.map fun other =>
        .after p other (values other) (Function.update j source (j source + 1) other))) := by
  have hj : j source ≠ (p.wire value).length := Nat.ne_of_lt (List.getElem?_eq_some_iff.1 hchunk).1
  have hstate : ∀ other ∈ sources, ∀ arrival,
      Incoming.after p other (values other) (j other) = .underway arrival →
        arrival.source = other := by
    intro other _ arrival h
    exact Incoming.source_of_after h
  have hunderway : Incoming.after p source (values source) (j source) =
      .underway (p.arrived source value (j source)) := by
    rw [hvalue]
    exact if_neg hj
  rw [gatherChunk_map hnodup hstate hmem hunderway (p.accept_arrived hp hchunk)
    (hround.absorb_arrived hp hchunk)]
  congr 2
  apply List.map_congr_left
  intro other _
  by_cases hother : other = source
  · subst hother
    rw [Function.update_self, Function.update_self, hvalue, Incoming.after]
  · rw [Function.update_of_ne hother, Function.update_of_ne hother]

/-! ## Stages of a call -/

/-- How far a call has come that takes values and then comes to an outcome: it waits for values, or
it has them all and has sent some of its parcels. -/
inductive Stage (outcome : List α → Outcome β) (incoming : List (Incoming α)) :
    List Parcel → Call α β → Prop
  | gathering : incoming.mapM Incoming.value? = none →
    Stage outcome incoming [] (.gather incoming fun values => (outcome values).call)
  | receiving {arrival : Arrival α} : incoming = [.underway arrival] →
    Stage outcome incoming [] (.receive arrival [] fun value => (outcome [value]).call)
  | sending {values : List α} {done rest : List Parcel} :
    incoming.mapM Incoming.value? = some values → (outcome values).parcels = done ++ rest →
      Stage outcome incoming done (.sendAll rest (.finished (outcome values).result))

namespace Stage

variable {outcome : List α → Outcome β} {incoming : List (Incoming α)} {done : List Parcel}
  {call next : Call α β}

/-- A call that gathers has its outcome at once if there is nothing to gather. -/
theorem gatherFrom (outcome : List α → Outcome β) (sources : List String) :
    Stage outcome (sources.map fun source => .underway (.from source)) []
      (gatherFrom sources fun values => (outcome values).call) := by
  cases sources with
  | nil => exact .sending rfl rfl
  | cons first rest =>
    have hnone : (((first :: rest).map fun source => Incoming.underway (.from source)).mapM
        Incoming.value? : Option (List α)) = none := rfl
    exact .gathering hnone

theorem send (h : Stage outcome incoming done call) {parcel : Parcel}
    (hsent : call.sent? = some (parcel, next)) :
    Stage outcome incoming (done ++ [parcel]) next ∧
      ∃ values, parcel ∈ (outcome values).parcels := by
  cases h with
  | gathering => cases hsent
  | receiving => cases hsent
  | @sending values _ rest hvalues hparcels =>
    obtain ⟨more, rfl, rfl⟩ := eq_sendAll_of_sent? rfl hsent
    refine
      ⟨.sending hvalues (by rw [hparcels, List.append_assoc, List.singleton_append]), values, ?_⟩
    rw [hparcels]
    exact List.mem_append_right _ List.mem_cons_self

/-- A call that takes a chunk goes on to its outcome as soon as it has all values. -/
theorem take (h : Stage outcome incoming done call)
    (htake : call.take? p source chunk = some next) :
    done = [] ∧ ∃ answer, gatherChunk p source chunk incoming = some answer ∧
      ∀ more, answer = .ok more → Stage outcome more [] next := by
  cases h with
  | gathering =>
    obtain ⟨answer, hanswer, rfl⟩ := Option.map_eq_some_iff.1 htake
    refine ⟨rfl, answer, hanswer, ?_⟩
    rintro more rfl
    dsimp only
    cases hvalues : more.mapM Incoming.value? with
    | none => exact .gathering hvalues
    | some values => exact .sending hvalues rfl
  | @receiving arrival hincoming =>
    subst hincoming
    rw [take?] at htake
    split at htake
    · next hsource =>
      obtain rfl := Option.some.inj htake
      rw [gatherChunk, if_pos hsource]
      refine ⟨rfl, _, rfl, ?_⟩
      intro more hmore
      cases haccept : arrival.assembler.accept chunk.header with
      | error error =>
        rw [haccept] at hmore
        cases hmore
      | ok assembler =>
        rw [haccept] at hmore
        dsimp only at hmore ⊢
        rw [List.map_nil, sendAll_nil]
        cases habsorb : arrival.absorb p assembler chunk with
        | error error =>
          rw [habsorb] at hmore
          cases hmore
        | ok new =>
          rw [habsorb] at hmore
          obtain rfl := Except.ok.inj hmore
          cases new with
          | underway arrival => exact .receiving rfl
          | complete value => exact .sending rfl rfl
    · cases htake
  | sending =>
    obtain rfl := eq_nil_of_take? htake
    cases htake

/-- A call that waits for a task has sent nothing, for it takes values from some tasks. -/
theorem of_mem_awaits (h : Stage outcome incoming done call) (hawaits : source ∈ call.awaits) :
    done = [] ∧ ∃ first, first ∈ incoming := by
  cases h with
  | gathering =>
    obtain ⟨first, hfirst, -⟩ := List.mem_filterMap.1 hawaits
    exact ⟨rfl, first, hfirst⟩
  | receiving hincoming => exact ⟨rfl, _, by rw [hincoming]; exact List.mem_cons_self⟩
  | @sending _ _ rest =>
    cases rest with
    | nil => cases hawaits
    | cons parcel more => cases hawaits

/-- A call that has ended has all values, and has sent all parcels. -/
theorem result (h : Stage outcome incoming done call) {result : Except GroupError β}
    (hresult : call.result? = some result) :
    ∃ values, incoming.mapM Incoming.value? = some values ∧ (outcome values).parcels = done ∧
      result = (outcome values).result := by
  cases h with
  | gathering => cases hresult
  | receiving => cases hresult
  | sending hvalues hparcels =>
    obtain rfl := eq_nil_of_result? (Option.isSome_of_eq_some hresult)
    exact ⟨_, hvalues, by rw [hparcels, List.append_nil], (Option.some.inj hresult).symm⟩

end Stage

end Call

end Collective
