import Collective.Proofs.Group.Gather
import Mathlib.Algebra.GroupWithZero.Nat
import Mathlib.Algebra.Order.BigOperators.Group.List
import Mathlib.Algebra.Order.Group.Nat

/-!
# What a call exchanges

A call that does its part takes certain chunks from each of some tasks, sends certain parcels, and
then ends without an error. `Exchanges` says so by the steps of the call: it waits only where chunks
are due, and each of them brings it closer to its end. Where the values come back from their codec,
the call of every endpoint does its part.
-/

namespace Collective

namespace Parcel

variable {destination : String}

theorem chunksTo_toEach_eq {destinations : List String} (hnodup : destinations.Nodup)
    (chunks : String → List (Chunk Bytes)) :
    chunksTo destination (toEach destinations chunks) =
      if destination ∈ destinations then chunks destination else [] := by
  split
  · next hmem => exact chunksTo_toEach hnodup hmem chunks
  · next hmem => exact chunksTo_toEach_of_not_mem hmem chunks

theorem chunksTo_toAll_eq {destinations : List String} (hnodup : destinations.Nodup)
    (chunks : List (Chunk Bytes)) :
    chunksTo destination (toAll destinations chunks) =
      if destination ∈ destinations then chunks else [] :=
  chunksTo_toEach_eq hnodup fun _ => chunks

/-- Chunks that are sent to all tasks one by one, to one task after the other. -/
def relayed (destinations : List String) (chunks : List (Chunk Bytes)) : List Parcel :=
  chunks.flatMap fun chunk => toAll destinations [chunk]

/-- A task without children relays nothing. -/
theorem relayed_nil (chunks : List (Chunk Bytes)) : relayed [] chunks = [] :=
  List.flatMap_eq_nil_iff.2 fun _ _ => rfl

theorem relayed_cons (destinations : List String) (chunk : Chunk Bytes)
    (chunks : List (Chunk Bytes)) :
    relayed destinations (chunk :: chunks) =
      toAll destinations [chunk] ++ relayed destinations chunks :=
  List.flatMap_cons

theorem chunksTo_relayed {destinations : List String} (hnodup : destinations.Nodup)
    (chunks : List (Chunk Bytes)) :
    chunksTo destination (relayed destinations chunks) =
      if destination ∈ destinations then chunks else [] := by
  induction chunks with
  | nil =>
    split <;> rfl
  | cons chunk rest ih =>
    rw [relayed_cons, chunksTo_append, chunksTo_toAll_eq hnodup, ih]
    split <;> rfl

end Parcel

namespace Call

variable {α β γ : Type} {p : Passage α} {ins : String → List (Chunk Bytes)}
  {outs : List Parcel} {call rest next : Call α β} {source : String} {chunk : Chunk Bytes}

/-- The call takes so many chunks from each task, sends the parcels in order and then ends without
an error. -/
inductive Exchanges (p : Passage α) :
    (String → List (Chunk Bytes)) → List Parcel → Call α β → Prop
  | finished (value : β) : Exchanges p (fun _ => []) [] (.finished (.ok value))
  | send {ins : String → List (Chunk Bytes)} {outs : List Parcel} {rest : Call α β}
      (parcel : Parcel) :
    Exchanges p ins outs rest → Exchanges p ins (parcel :: outs) (.send parcel rest)
  | wait {ins : String → List (Chunk Bytes)} {outs : List Parcel} {call : Call α β} :
    call.awaits ≠ [] → (∀ source ∈ call.awaits, ins source ≠ []) →
      (∀ source chunk more next, ins source = chunk :: more →
        call.take? p source chunk = some next →
          Exchanges p (Function.update ins source more) outs next) →
      Exchanges p ins outs call

/-- A call takes only what it waits for. -/
theorem mem_awaits_of_take? (h : call.take? p source chunk = some next) :
    source ∈ call.awaits := by
  cases call with
  | finished => cases h
  | send => cases h
  | receive arrival relay next =>
    rw [take?] at h
    split at h
    · next hsource => exact List.mem_singleton.2 hsource.symm
    · cases h
  | gather incoming next =>
    obtain ⟨answer, hanswer, -⟩ := Option.map_eq_some_iff.1 h
    obtain ⟨arrival, hmem, rfl⟩ := exists_underway_of_gatherChunk hanswer
    exact List.mem_filterMap.2 ⟨_, hmem, rfl⟩

namespace Exchanges

/-! ## Steps -/

theorem of_sent? {parcel : Parcel} (h : Exchanges p ins outs call)
    (hsent : call.sent? = some (parcel, rest)) :
    ∃ more, outs = parcel :: more ∧ Exchanges p ins more rest := by
  cases h with
  | finished => cases hsent
  | send other hrest =>
    obtain ⟨rfl, rfl⟩ := Prod.mk.inj (Option.some.inj hsent)
    exact ⟨_, rfl, hrest⟩
  | wait hawaits =>
    cases call with
    | send => exact absurd rfl hawaits
    | finished => cases hsent
    | receive => cases hsent
    | gather => cases hsent

/-- A chunk that the call takes is due, and the rest is due once it has taken that one. -/
theorem of_take? (h : Exchanges p ins outs call) (htake : call.take? p source chunk = some next) :
    ∃ first more, ins source = first :: more ∧
      (first = chunk → Exchanges p (Function.update ins source more) outs next) := by
  cases h with
  | finished => cases htake
  | send => cases htake
  | wait _ hdue hnext =>
    obtain ⟨first, more, hins⟩ :=
      List.exists_cons_of_ne_nil (hdue source (mem_awaits_of_take? htake))
    refine ⟨first, more, hins, ?_⟩
    rintro rfl
    exact hnext source first more next hins htake

/-- A call that has ended has done its part. -/
theorem of_result? {result : Except GroupError β} (h : Exchanges p ins outs call)
    (hresult : call.result? = some result) :
    (∃ value, result = .ok value) ∧ (∀ source, ins source = []) ∧ outs = [] := by
  cases h with
  | finished value => exact ⟨⟨value, (Option.some.inj hresult).symm⟩, fun _ => rfl, rfl⟩
  | send => cases hresult
  | wait hawaits =>
    obtain ⟨source, hsource⟩ := List.exists_mem_of_ne_nil _ hawaits
    rw [result?_of_mem_awaits hsource] at hresult
    cases hresult

/-- A call that has not ended sends, or it waits for a chunk that is due. -/
theorem of_open (h : Exchanges p ins outs call) (hopen : call.result? = none) :
    (∃ parcel rest, call.sent? = some (parcel, rest)) ∨
      ∃ source ∈ call.awaits, ins source ≠ [] := by
  cases h with
  | finished => cases hopen
  | send parcel => exact .inl ⟨parcel, _, rfl⟩
  | wait hawaits hdue =>
    obtain ⟨source, hsource⟩ := List.exists_mem_of_ne_nil _ hawaits
    exact .inr ⟨source, hsource, hdue source hsource⟩

/-- A call that has something to exchange has not ended. -/
theorem result?_eq_none (h : Exchanges p ins outs call)
    (hsome : outs ≠ [] ∨ ∃ source, ins source ≠ []) : call.result? = none := by
  cases hresult : call.result? with
  | none => rfl
  | some result =>
    obtain ⟨-, hins, houts⟩ := h.of_result? hresult
    rcases hsome with hsome | ⟨source, hsource⟩
    · exact absurd houts hsome
    · exact absurd (hins source) hsource

end Exchanges

/-! ## Calls whose result is passed on -/

theorem awaits_map (f : β → γ) (call : Call α β) : (call.map f).awaits = call.awaits := by
  cases call <;> rfl

theorem take?_map (f : β → γ) (call : Call α β) :
    (call.map f).take? p source chunk = (call.take? p source chunk).map (Call.map f) := by
  cases call with
  | finished => rfl
  | send => rfl
  | receive arrival relay next =>
    rw [map, take?, take?]
    split
    · rw [Option.map_some]
      congr 1
      cases arrival.assembler.accept chunk.header with
      | error e => rfl
      | ok assembler =>
        dsimp only
        rw [map_sendAll]
        congr 1
        cases arrival.absorb p assembler chunk with
        | error e => rfl
        | ok new => cases new <;> rfl
    · rfl
  | gather incoming next =>
    rw [map, take?, take?, Option.map_map]
    congr 1
    funext answer
    cases answer with
    | error e => rfl
    | ok incoming =>
      rw [Function.comp_apply]
      dsimp only
      cases incoming.mapM Incoming.value? <;> rfl

namespace Exchanges

theorem map (h : Exchanges p ins outs call) (f : β → γ) : Exchanges p ins outs (call.map f) := by
  induction h with
  | finished value => exact .finished (f value)
  | send parcel _ ih => exact .send parcel ih
  | @wait ins outs call hawaits hdue _ ih =>
    refine .wait ?_ ?_ ?_
    · rwa [awaits_map]
    · rwa [awaits_map]
    · intro source chunk more next hins htake
      rw [take?_map] at htake
      obtain ⟨next, hnext, rfl⟩ := Option.map_eq_some_iff.1 htake
      exact ih source chunk more next hins hnext

/-! ## Sending -/

theorem sendAll (h : Exchanges p ins outs rest) (parcels : List Parcel) :
    Exchanges p ins (parcels ++ outs) (.sendAll parcels rest) := by
  induction parcels with
  | nil => exact h
  | cons parcel parcels ih => exact .send parcel ih

theorem sendValue (h : Exchanges p ins outs rest) {value : α} (hround : p.RoundTrips value)
    (destinations : List String) :
    Exchanges p ins (Parcel.toAll destinations (p.wire value) ++ outs)
      (.sendValue p destinations value rest) := by
  rw [Call.sendValue, hround.frames_eq]
  exact h.sendAll _

theorem sendEach (h : Exchanges p ins outs rest) {values : List (String × α)}
    (hround : ∀ entry ∈ values, p.RoundTrips entry.2) :
    Exchanges p ins ((values.flatMap fun (destination, value) =>
      (p.wire value).map (Parcel.mk destination)) ++ outs) (.sendEach p values rest) := by
  induction values with
  | nil => exact h
  | cons first values ih =>
    have hrest := ih fun entry hentry => hround entry (List.mem_cons_of_mem _ hentry)
    have hfirst := hrest.sendValue (hround first List.mem_cons_self) [first.1]
    rw [Parcel.toAll, List.flatMap_singleton, ← List.append_assoc] at hfirst
    rw [List.flatMap_cons]
    exact hfirst

/-! ## Receiving -/

/-- A call that receives a value takes its chunks, and relays each of them when it has come. -/
theorem receiving (hp : p.converter.Lawful) {value : α} (hround : p.RoundTrips value)
    (source : String) (relay : List String) {next : α → Call α β}
    (hnext : Exchanges p (fun _ => []) outs (next value)) {j n : Nat}
    (hn : j + n = (p.wire value).length) :
    Exchanges p (Function.update (fun _ => []) source ((p.wire value).drop j))
      (Parcel.relayed relay ((p.wire value).drop j) ++ outs)
      (.receiving p source relay next value j) := by
  induction n generalizing j with
  | zero =>
    rw [Nat.add_zero] at hn
    rw [Call.receiving, if_pos hn, hn, List.drop_length, Function.update_eq_self_iff.2 rfl]
    exact hnext
  | succ n ih =>
    have hlt : j < (p.wire value).length := by omega
    have hne : j ≠ (p.wire value).length := Nat.ne_of_lt hlt
    have hdrop := List.drop_eq_getElem_cons hlt
    have hcall : Call.receiving p source relay next value j =
        .receive (p.arrived source value j) relay next := if_neg hne
    have hawaits : (Call.receiving p source relay next value j).awaits = [source] := by
      rw [hcall]
      rfl
    refine .wait ?_ ?_ ?_
    · rw [hawaits]
      exact List.cons_ne_nil _ _
    · rw [hawaits]
      intro other hother
      obtain rfl := List.mem_singleton.1 hother
      rw [Function.update_self, hdrop]
      exact List.cons_ne_nil _ _
    · intro other chunk more call hins htake
      have hother := mem_awaits_of_take? htake
      rw [hawaits] at hother
      obtain rfl := List.mem_singleton.1 hother
      rw [Function.update_self, hdrop] at hins
      obtain ⟨rfl, rfl⟩ := List.cons.inj hins
      rw [take?_receiving hp hround (List.getElem?_eq_getElem hlt)] at htake
      obtain rfl := Option.some.inj htake
      rw [Function.update_idem, hdrop, Parcel.relayed_cons, List.append_assoc]
      exact (ih (by omega)).sendAll _

/-- From the beginning, the call takes all chunks of the value. -/
theorem receive (hp : p.converter.Lawful) {value : α} (hround : p.RoundTrips value)
    (source : String) (relay : List String) {next : α → Call α β}
    (hnext : Exchanges p (fun _ => []) outs (next value)) :
    Exchanges p (Function.update (fun _ => []) source (p.wire value))
      (Parcel.relayed relay (p.wire value) ++ outs) (.receive (.from source) relay next) := by
  have hcall := receiving hp hround source relay hnext (Nat.zero_add _)
  rwa [receiving_zero hp, List.drop_zero] at hcall

end Exchanges

/-! ## Gathering -/

/-- A call that gathers a value from each of some tasks, after so many chunks from each. -/
def gathering (p : Passage α) (sources : List String) (next : List α → Call α β)
    (values : String → α) (j : String → Nat) : Call α β :=
  if ∀ source ∈ sources, j source = (p.wire (values source)).length then next (sources.map values)
  else .gather (sources.map fun source => .after p source (some (values source)) (j source)) next

section Gathering

variable {sources : List String} {next : List α → Call α β} {values : String → α}
  {j : String → Nat}

theorem mapM_value?_after
    (h : ∀ source ∈ sources, j source = (p.wire (values source)).length) :
    (sources.map fun source => Incoming.after p source (some (values source)) (j source)).mapM
      Incoming.value? = some (sources.map values) := by
  rw [List.mapM_map]
  apply mapM_eq_some
  intro source hsource
  exact Incoming.value?_after.2 ⟨rfl, h source hsource⟩

theorem mapM_value?_after_eq_none
    (h : ¬ ∀ source ∈ sources, j source = (p.wire (values source)).length) :
    (sources.map fun source => Incoming.after p source (some (values source)) (j source)).mapM
      Incoming.value? = none := by
  cases hvalues : (sources.map fun source =>
      Incoming.after p source (some (values source)) (j source)).mapM Incoming.value? with
  | none => rfl
  | some all =>
    rw [List.mapM_map] at hvalues
    refine absurd ?_ h
    intro source hsource
    obtain ⟨value, hvalue⟩ := exists_of_mapM_eq_some hvalues hsource
    obtain ⟨hsame, hlength⟩ := Incoming.value?_after.1 hvalue
    obtain rfl := Option.some.inj hsame
    exact hlength

theorem gathering_zero (hp : p.converter.Lawful) (sources : List String)
    (next : List α → Call α β) (values : String → α) :
    gathering p sources next values (fun _ => 0) = gatherFrom sources next := by
  cases sources with
  | nil => exact if_pos nofun
  | cons first rest =>
    have hopen : ¬ ∀ source ∈ first :: rest, 0 = (p.wire (values source)).length := by
      intro h
      exact p.wire_ne_nil hp _ (List.length_eq_zero_iff.1 (h first List.mem_cons_self).symm)
    rw [gathering, if_neg hopen]
    show Call.gather _ next = Call.gather _ next
    congr 1
    apply List.map_congr_left
    intro source _
    exact Incoming.after_zero hp source _

/-- A call that gathers waits for the tasks whose values have not come as a whole. -/
theorem mem_awaits_gathering
    (hopen : ¬ ∀ source ∈ sources, j source = (p.wire (values source)).length) :
    source ∈ (gathering p sources next values j).awaits ↔
      source ∈ sources ∧ j source ≠ (p.wire (values source)).length := by
  rw [gathering, if_neg hopen, awaits, List.mem_filterMap]
  constructor
  · rintro ⟨incoming, hmem, hsource⟩
    obtain ⟨other, hother, rfl⟩ := List.mem_map.1 hmem
    rw [Incoming.after] at hsource
    split at hsource
    · cases hsource
    · next hj =>
      obtain rfl := Option.some.inj hsource
      exact ⟨hother, hj⟩
  · rintro ⟨hmem, hj⟩
    refine ⟨_, List.mem_map_of_mem hmem, ?_⟩
    rw [Incoming.after, if_neg hj]
    rfl

/-- The next chunk of one of the values is one more that has come. -/
theorem take?_gathering (hp : p.converter.Lawful) (hnodup : sources.Nodup)
    (hmem : source ∈ sources) (hround : p.RoundTrips (values source))
    (hchunk : (p.wire (values source))[j source]? = some chunk) :
    (gathering p sources next values j).take? p source chunk =
      some (gathering p sources next values (Function.update j source (j source + 1))) := by
  have hopen : ¬ ∀ source ∈ sources, j source = (p.wire (values source)).length := by
    intro h
    exact Nat.ne_of_lt (List.getElem?_eq_some_iff.1 hchunk).1 (h source hmem)
  have hgather : gatherChunk p source chunk
      (sources.map fun other => .after p other (some (values other)) (j other)) =
        some (.ok (sources.map fun other => .after p other (some (values other))
          (Function.update j source (j source + 1) other))) :=
    gatherChunk_after hp hnodup hmem rfl hround hchunk
  rw [gathering, if_neg hopen, take?, hgather, Option.map_some, gathering]
  by_cases hall : ∀ other ∈ sources, Function.update j source (j source + 1) other =
      (p.wire (values other)).length
  · rw [if_pos hall]
    dsimp only
    rw [mapM_value?_after hall]
  · rw [if_neg hall]
    dsimp only
    rw [mapM_value?_after_eq_none hall]

/-- The chunks that have not come. -/
def due (p : Passage α) (sources : List String) (values : String → α) (j : String → Nat)
    (source : String) : List (Chunk Bytes) :=
  if source ∈ sources then (p.wire (values source)).drop (j source) else []

/-- The number of chunks that have not come. -/
def missing (p : Passage α) (sources : List String) (values : String → α) (j : String → Nat) :
    Nat :=
  (sources.map fun source => (p.wire (values source)).length - j source).sum

theorem due_eq_nil (h : ∀ source ∈ sources, j source = (p.wire (values source)).length) :
    due p sources values j = fun _ => [] := by
  funext source
  rw [due]
  split
  · next hsource => rw [h source hsource, List.drop_length]
  · rfl

/-- With a chunk from one of the tasks, one less is due from there. -/
theorem update_due (hsource : source ∈ sources) :
    Function.update (due p sources values j) source
        ((p.wire (values source)).drop (j source + 1)) =
      due p sources values (Function.update j source (j source + 1)) := by
  funext other
  by_cases hother : other = source
  · subst hother
    rw [Function.update_self, due, if_pos hsource, Function.update_self]
  · rw [Function.update_of_ne hother, due, due, Function.update_of_ne hother]

theorem missing_update_lt (hsource : source ∈ sources)
    (hlt : j source < (p.wire (values source)).length) :
    missing p sources values (Function.update j source (j source + 1)) <
      missing p sources values j := by
  apply List.sum_lt_sum
  · intro other _
    by_cases hother : other = source
    · subst hother
      rw [Function.update_self]
      omega
    · rw [Function.update_of_ne hother]
  · refine ⟨source, hsource, ?_⟩
    rw [Function.update_self]
    omega

/-- A call that gathers takes the chunks of all values, in whatever order they come. -/
theorem Exchanges.gathering (hp : p.converter.Lawful) (hnodup : sources.Nodup)
    (hround : ∀ source ∈ sources, p.RoundTrips (values source))
    (hnext : Exchanges p (fun _ => []) outs (next (sources.map values)))
    (hj : ∀ source ∈ sources, j source ≤ (p.wire (values source)).length) :
    Exchanges p (due p sources values j) outs (.gathering p sources next values j) := by
  induction hmissing : missing p sources values j using Nat.strongRecOn generalizing j with
  | ind n ih =>
  subst hmissing
  by_cases hall : ∀ source ∈ sources, j source = (p.wire (values source)).length
  · rw [due_eq_nil hall, Call.gathering, if_pos hall]
    exact hnext
  have hmore : ∀ source ∈ (Call.gathering p sources next values j).awaits,
      source ∈ sources ∧ j source < (p.wire (values source)).length := by
    intro source hawaits
    obtain ⟨hsource, hne⟩ := (mem_awaits_gathering hall).1 hawaits
    exact ⟨hsource, Nat.lt_of_le_of_ne (hj source hsource) hne⟩
  refine .wait ?_ ?_ ?_
  · obtain ⟨source, hsource, hne⟩ : ∃ source ∈ sources,
        j source ≠ (p.wire (values source)).length := by
      simpa using hall
    exact List.ne_nil_of_mem ((mem_awaits_gathering hall).2 ⟨hsource, hne⟩)
  · intro source hawaits
    obtain ⟨hsource, hlt⟩ := hmore source hawaits
    rw [due, if_pos hsource, List.drop_eq_getElem_cons hlt]
    exact List.cons_ne_nil _ _
  · intro source chunk more call hins htake
    obtain ⟨hsource, hlt⟩ := hmore source (mem_awaits_of_take? htake)
    rw [due, if_pos hsource, List.drop_eq_getElem_cons hlt] at hins
    obtain ⟨rfl, rfl⟩ := List.cons.inj hins
    rw [take?_gathering hp hnodup hsource (hround source hsource)
      (List.getElem?_eq_getElem hlt)] at htake
    obtain rfl := Option.some.inj htake
    rw [update_due hsource]
    refine ih _ (missing_update_lt hsource hlt) ?_ rfl
    intro other hother
    by_cases hsame : other = source
    · subst hsame
      rwa [Function.update_self]
    · rw [Function.update_of_ne hsame]
      exact hj other hother

/-- From the beginning, the call takes all chunks of all values. -/
theorem Exchanges.gatherFrom (hp : p.converter.Lawful) (hnodup : sources.Nodup)
    (hround : ∀ source ∈ sources, p.RoundTrips (values source))
    (hnext : Exchanges p (fun _ => []) outs (next (sources.map values))) :
    Exchanges p (fun source => if source ∈ sources then p.wire (values source) else []) outs
      (.gatherFrom sources next) := by
  have hcall := Exchanges.gathering hp hnodup hround hnext fun _ _ => Nat.zero_le _
  rw [gathering_zero hp] at hcall
  exact hcall

end Gathering

end Call

/-! ## Calls of endpoints -/

namespace Endpoint

variable {α ε : Type} {parent : String}

section Values

variable {e : Endpoint α} {function : List α → Except ReductionError α} {value total : α}
  {values : String → α}

theorem exchanges_sendBroadcast (hround : e.passage.RoundTrips value) :
    (e.sendBroadcast value).Exchanges e.passage (fun _ => [])
      (Parcel.toAll e.place.children (e.passage.wire value)) := by
  have hcall := (Call.Exchanges.finished (p := e.passage) ()).sendValue hround e.place.children
  rwa [List.append_nil] at hcall

theorem exchanges_receiveBroadcast (hp : e.passage.converter.Lawful)
    (hround : e.passage.RoundTrips value) (hparent : e.place.parent = some parent) :
    e.receiveBroadcast.Exchanges e.passage
      (Function.update (fun _ => []) parent (e.passage.wire value))
      (Parcel.relayed e.place.children (e.passage.wire value)) := by
  rw [receiveBroadcast, withParent, hparent, ← List.append_nil (Parcel.relayed _ _)]
  exact .receive hp hround parent e.place.children (.finished value)

/-- A task that gathers what comes back from its codec passes on what it folds. -/
theorem exchanges_sendReduce (hp : e.passage.converter.Lawful) (hnodup : e.place.children.Nodup)
    (hchildren : ∀ child ∈ e.place.children, e.passage.RoundTrips (values child))
    (htotal : function (value :: e.place.children.map values) = .ok total)
    (hround : e.passage.RoundTrips total) (hparent : e.place.parent = some parent) :
    (e.sendReduce function value).Exchanges e.passage
      (fun source => if source ∈ e.place.children then e.passage.wire (values source) else [])
      (Parcel.toAll [parent] (e.passage.wire total)) := by
  have hsend := (Call.Exchanges.finished (p := e.passage) ()).sendValue hround [parent]
  rw [List.append_nil] at hsend
  rw [sendReduce, withParent, hparent]
  refine .gatherFrom hp hnodup hchildren ?_
  rw [htotal]
  exact hsend

theorem exchanges_receiveReduce (hp : e.passage.converter.Lawful)
    (hnodup : e.place.children.Nodup)
    (hchildren : ∀ child ∈ e.place.children, e.passage.RoundTrips (values child))
    (htotal : function (e.place.children.map values) = .ok total) :
    (e.receiveReduce function).Exchanges e.passage
      (fun source => if source ∈ e.place.children then e.passage.wire (values source) else [])
      [] := by
  refine .gatherFrom hp hnodup hchildren ?_
  rw [htotal]
  exact .finished total

end Values

section Lists

variable {e : Endpoint (List ε)} {elements : List ε} {part : String → List ε}

/-- What a task sends that gives each of its children a part of a list. -/
theorem exchanges_sendEach {β : Type} (value : β)
    (hchildren : ∀ child ∈ e.place.children, e.passage.RoundTrips (part child)) :
    (Call.sendEach e.passage (e.place.children.zip (e.place.children.map part))
      (.finished (.ok value))).Exchanges e.passage (fun _ => [])
        (Parcel.toEach e.place.children fun child => e.passage.wire (part child)) := by
  have hround : ∀ entry ∈ e.place.children.map fun child => (child, part child),
      e.passage.RoundTrips entry.2 := by
    intro entry hentry
    obtain ⟨child, hchild, rfl⟩ := List.mem_map.1 hentry
    exact hchildren child hchild
  have hcall := (Call.Exchanges.finished (p := e.passage) value).sendEach hround
  rw [List.append_nil, List.flatMap_map] at hcall
  rw [← List.map_prod_left_eq_zip]
  exact hcall

theorem exchanges_sendScatter
    (hparts : Share.shares e.place.children.length elements = e.place.children.map part)
    (hchildren : ∀ child ∈ e.place.children, e.passage.RoundTrips (part child)) :
    (e.sendScatter elements).Exchanges e.passage (fun _ => [])
      (Parcel.toEach e.place.children fun child => e.passage.wire (part child)) := by
  rw [sendScatter, hparts]
  exact exchanges_sendEach () hchildren

theorem exchanges_receiveScatter (hp : e.passage.converter.Lawful)
    (hround : e.passage.RoundTrips elements) (hparent : e.place.parent = some parent)
    (hparts : (Share.shares (e.place.children.length + 1) elements).tail =
      e.place.children.map part)
    (hchildren : ∀ child ∈ e.place.children, e.passage.RoundTrips (part child)) :
    e.receiveScatter.Exchanges e.passage
      (Function.update (fun _ => []) parent (e.passage.wire elements))
      (Parcel.toEach e.place.children fun child => e.passage.wire (part child)) := by
  rw [receiveScatter, withParent, hparent, ← List.nil_append (Parcel.toEach _ _),
    ← Parcel.relayed_nil (e.passage.wire elements)]
  refine .receive hp hround parent [] ?_
  dsimp only
  rw [hparts]
  exact exchanges_sendEach _ hchildren

end Lists

end Endpoint

end Collective
