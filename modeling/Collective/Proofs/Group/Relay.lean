import Collective.Group.Endpoint
import Collective.Proofs.Group.Transfer

/-!
# Rounds of a broadcast at one task

A task that is given a stream of values chunk by chunk receives one value after the other, and
relays what it takes: what it has taken is, for every child, what it has sent to the child and what
it is about to send. The root makes the same stream out of the values that it is called with.
-/

namespace Collective

namespace Endpoint

variable {type : PayloadType} {e : Endpoint type.Carrier} {parent : String}
  {values : List type.Carrier} {client : Nat} {known : String → Prop} {history : List Act}
  {jobs : List (Job (Option type.Carrier))}

open Act (sentTo takenFrom)

/-! ## Receiving -/

/-- The calls of a task that receives as many values as there are. -/
def receptions (e : Endpoint type.Carrier) (client : Nat) (values : List type.Carrier) :
    List (Job (Option type.Carrier)) :=
  values.map fun _ => .new client type e (e.receiveBroadcast.map some)

/-- The call that receives a value, after `j` chunks of it, some of them still to be relayed. -/
def reception (e : Endpoint type.Carrier) (client : Nat) (parent : String) (value : type.Carrier)
    (j : Nat) (parcels : List Parcel) : Job (Option type.Carrier) :=
  .running client type e (e.receiveBroadcast.map some) <| .sendAll parcels <|
    .receiving e.passage parent e.place.children (fun value => .finished (.ok (some value))) value j

/-- A task that has read `j` chunks of the value after those of its past calls. -/
structure Relaying (e : Endpoint type.Carrier) (parent : String) (values : List type.Carrier)
    (history : List Act) (past : List (Job (Option type.Carrier))) (value : type.Carrier) (j : Nat)
    (parcels : List Parcel) : Prop where
  value_eq : values[past.length]? = some value
  le_length : j ≤ (e.passage.wire value).length
  destinations : ∀ parcel ∈ parcels, parcel.destination ∈ e.place.children
  results : ∀ (m : Nat) (job : Job (Option type.Carrier)), past[m]? = some job →
    ∃ value, values[m]? = some value ∧ job.result? = some (.ok (some value))
  taken : takenFrom e.operator parent history =
    e.passage.stream (values.take past.length) ++ (e.passage.wire value).take j
  relayed : ∀ child ∈ e.place.children,
    sentTo e.operator child history ++ Parcel.chunksTo child parcels =
      takenFrom e.operator parent history
  served : ∀ child ∈ e.place.children,
    e.passage.stream (values.take past.length) <+: sentTo e.operator child history

/-- How far a task has come that is given a part of the stream of some values. -/
def Relays (e : Endpoint type.Carrier) (client : Nat) (parent : String)
    (values : List type.Carrier) (history : List Act) (jobs : List (Job (Option type.Carrier))) :
    Prop :=
  jobs = [] ∧ takenFrom e.operator parent history = [] ∧
      (∀ child ∈ e.place.children, sentTo e.operator child history = []) ∨
    ∃ past value j parcels, e.Relaying parent values history past value j parcels ∧
      jobs = past ++ [e.reception client parent value j parcels]

theorem Relays.last {past : List (Job (Option type.Carrier))} {job : Job (Option type.Carrier)}
    (h : e.Relays client parent values history (past ++ [job])) :
    ∃ value j parcels, e.Relaying parent values history past value j parcels ∧
      job = e.reception client parent value j parcels := by
  rcases h with ⟨hnil, _⟩ | ⟨past', value, j, parcels, h, hjobs⟩
  · exact absurd hnil (by simp)
  · obtain ⟨rfl, hjob⟩ := List.append_inj' hjobs rfl
    exact ⟨value, j, parcels, h, List.singleton_inj.1 hjob⟩

namespace Relaying

variable {past : List (Job (Option type.Carrier))} {value : type.Carrier} {j : Nat}
  {parcels : List Parcel}

theorem start (hvalue : values[0]? = some value)
    (htaken : takenFrom e.operator parent history = [])
    (hsent : ∀ child ∈ e.place.children, sentTo e.operator child history = []) :
    e.Relaying parent values history [] value 0 [] where
  value_eq := hvalue
  le_length := Nat.zero_le _
  destinations := nofun
  results := nofun
  taken := htaken
  relayed child hchild := by rw [hsent child hchild, htaken, Parcel.chunksTo_nil, List.append_nil]
  served child _ := ⟨_, rfl⟩

theorem send {parcel : Parcel}
    (h : e.Relaying parent values history past value j (parcel :: parcels)) :
    e.Relaying parent values (history ++ [.send e.operator parcel]) past value j parcels := by
  refine ⟨h.value_eq, h.le_length, ?_, h.results, ?_, ?_, ?_⟩
  · intro other hother
    exact h.destinations other (List.mem_cons_of_mem _ hother)
  · rw [Act.takenFrom_append_send, h.taken]
  · intro child hchild
    rw [Act.takenFrom_append_send, ← h.relayed child hchild, Parcel.sentTo_append_chunksTo]
  · intro child hchild
    rw [Act.sentTo_append_send]
    exact (h.served child hchild).trans (List.prefix_append _ _)

theorem take (hnodup : e.place.children.Nodup)
    (h : e.Relaying parent values history past value j []) {chunk : Chunk Bytes}
    (hchunk : (e.passage.wire value)[j]? = some chunk) :
    e.Relaying parent values (history ++ [.take e.operator parent chunk]) past value (j + 1)
      (Parcel.toAll e.place.children [chunk]) := by
  have htaken : takenFrom e.operator parent (history ++ [.take e.operator parent chunk]) =
      takenFrom e.operator parent history ++ [chunk] := by
    rw [Act.takenFrom_append_take, if_pos ⟨rfl, rfl⟩]
  refine ⟨h.value_eq, (List.getElem?_eq_some_iff.1 hchunk).1, ?_, h.results, ?_, ?_, ?_⟩
  · intro parcel hparcel
    exact Parcel.destination_mem_of_mem_toAll hparcel
  · rw [htaken, h.taken, List.take_add_one, hchunk, List.append_assoc, Option.toList_some]
  · intro child hchild
    rw [htaken, Act.sentTo_append_take, ← h.relayed child hchild, Parcel.chunksTo_nil,
      List.append_nil, Parcel.chunksTo_toAll hnodup hchild]
  · intro child hchild
    rw [Act.sentTo_append_take]
    exact h.served child hchild

theorem begin (h : e.Relaying parent values history past value j [])
    (hj : j = (e.passage.wire value).length) {job : Job (Option type.Carrier)}
    (hjob : job.result? = some (.ok (some value))) {next : type.Carrier}
    (hnext : values[past.length + 1]? = some next) :
    e.Relaying parent values history (past ++ [job]) next 0 [] := by
  have hlength : (past ++ [job]).length = past.length + 1 := List.length_append
  have htaken : takenFrom e.operator parent history =
      e.passage.stream (values.take (past.length + 1)) := by
    rw [h.taken, hj, List.take_length, Passage.stream_take_succ h.value_eq]
  refine ⟨by rw [hlength, hnext], Nat.zero_le _, nofun, ?_, ?_, h.relayed, ?_⟩
  · intro m other hother
    rcases Nat.lt_or_ge m past.length with hlt | hge
    · rw [List.getElem?_append_left hlt] at hother
      exact h.results m other hother
    · rw [List.getElem?_append_right hge, List.getElem?_singleton] at hother
      split at hother
      · next hm =>
        obtain rfl := Option.some.inj hother
        obtain rfl : m = past.length := by omega
        exact ⟨value, h.value_eq, hjob⟩
      · cases hother
  · rw [htaken, hlength, List.take_zero, List.append_nil]
  · intro child hchild
    have hrelayed := h.relayed child hchild
    rw [Parcel.chunksTo_nil, List.append_nil, htaken] at hrelayed
    exact ⟨[], by rw [hlength, hrelayed, List.append_nil]⟩

end Relaying

theorem map_receiveBroadcast (hparent : e.place.parent = some parent) :
    e.receiveBroadcast.map some =
      .receive (.from parent) e.place.children fun value => .finished (.ok (some value)) := by
  rw [receiveBroadcast, withParent, hparent]
  rfl

/-- A task that is given a part of the stream relays it, and receives the values. -/
theorem relays_of_course (hp : e.passage.converter.Lawful)
    (hvalues : ∀ value ∈ values, e.passage.RoundTrips value)
    (hparent : e.place.parent = some parent) (hnodup : e.place.children.Nodup)
    (hknown : ∀ child ∈ e.place.children, known child)
    (h : Course known False (e.receptions client values) history jobs)
    (hpart : takenFrom e.operator parent history <+: e.passage.stream values) :
    e.Relays client parent values history jobs := by
  induction h with
  | start => exact .inl ⟨rfl, rfl, fun _ _ => rfl⟩
  | @begin history jobs job _ hended hnext ih =>
    rw [receptions, List.getElem?_map, Option.map_eq_some_iff] at hnext
    obtain ⟨next, hvalue, rfl⟩ := hnext
    have hfresh : Job.new client type e (e.receiveBroadcast.map some) =
        e.reception client parent next 0 [] := by
      rw [reception, Job.running, Call.sendAll_nil, Call.receiving_zero hp,
        map_receiveBroadcast hparent]
      rfl
    rcases ih hpart with ⟨rfl, htaken, hsent⟩ | ⟨past, value, j, parcels, h, rfl⟩
    · exact .inr ⟨[], next, 0, [], .start hvalue htaken hsent, by rw [hfresh]⟩
    · have hdone : (e.reception client parent value j parcels).result?.isSome = true :=
        hended _ (by simp)
      rw [reception, Job.result?_running] at hdone
      obtain rfl := Call.eq_nil_of_result? hdone
      have hj := Call.eq_length_of_result?_receiving hdone
      refine .inr ⟨_, next, 0, [], h.begin hj ?_ ?_, by rw [hfresh]⟩
      · rw [reception, Job.result?_running, Call.sendAll_nil, Call.receiving, if_pos hj]
        rfl
      · rwa [List.length_append] at hvalue
  | @send history past job parcel rest _ hsent _ ih =>
    rw [Act.takenFrom_append_send] at hpart
    obtain ⟨value, j, parcels, h, rfl⟩ := (ih hpart).last
    obtain ⟨more, rfl, rfl⟩ := Call.eq_sendAll_of_sent? (Call.sent?_receiving rfl) hsent
    exact .inr ⟨_, _, _, _, h.send, rfl⟩
  | @refuse history past job parcel rest error _ hsent hunknown ih =>
    obtain ⟨value, j, parcels, h, rfl⟩ := (ih hpart).last
    obtain ⟨more, rfl, rfl⟩ := Call.eq_sendAll_of_sent? (Call.sent?_receiving rfl) hsent
    exact absurd (hknown _ (h.destinations parcel List.mem_cons_self)) hunknown
  | @take history past job source chunk call _ htake ih =>
    have hearlier : takenFrom e.operator parent history <+: e.passage.stream values := by
      rw [Act.takenFrom_append_take] at hpart
      exact (List.prefix_append _ _).trans hpart
    obtain ⟨value, j, parcels, h, rfl⟩ := (ih hearlier).last
    obtain rfl := Call.eq_nil_of_take? htake
    obtain ⟨rfl, hj⟩ := Call.of_take?_receiving rfl htake
    rw [Act.takenFrom_append_take, if_pos ⟨rfl, rfl⟩, h.taken] at hpart
    have hchunk := Passage.getElem?_wire_of_stream h.value_eq
      (Nat.lt_of_le_of_ne h.le_length hj) hpart
    have hround := hvalues value (List.mem_of_getElem? h.value_eq)
    have hcall := (Call.take?_receiving hp hround hchunk).symm.trans htake
    obtain rfl := Option.some.inj hcall
    exact .inr ⟨_, _, _, _, h.take hnodup hchunk, rfl⟩
  | giveUp hhasty => exact hhasty.elim

/-- What a call of a task that relays a stream has come to, and what the task has sent by then. -/
theorem Relays.result {n : Nat} {job : Job (Option type.Carrier)}
    {result : Except GroupError (Option type.Carrier)}
    (h : e.Relays client parent values history jobs) (hjob : jobs[n]? = some job)
    (hresult : job.result? = some result) :
    ∃ value, values[n]? = some value ∧ result = .ok (some value) ∧
      ∀ child ∈ e.place.children,
        e.passage.stream (values.take (n + 1)) <+: sentTo e.operator child history ∧
          (jobs.length = n + 1 →
            sentTo e.operator child history = e.passage.stream (values.take (n + 1))) := by
  rcases h with ⟨rfl, _⟩ | ⟨past, value, j, parcels, h, rfl⟩
  · cases hjob
  · rcases Nat.lt_or_ge n past.length with hlt | hge
    · rw [List.getElem?_append_left hlt] at hjob
      obtain ⟨value, hvalue, hdone⟩ := h.results n job hjob
      refine ⟨value, hvalue, Option.some.inj (hresult.symm.trans hdone), ?_⟩
      intro child hchild
      refine ⟨(e.passage.stream_take_prefix_take values hlt).trans (h.served child hchild), ?_⟩
      intro hlength
      rw [List.length_append, List.length_singleton] at hlength
      omega
    · rw [List.getElem?_append_right hge, List.getElem?_singleton] at hjob
      split at hjob
      · next hn =>
        obtain rfl := Option.some.inj hjob
        obtain rfl : n = past.length := by omega
        rw [reception, Job.result?_running] at hresult
        have hended := Option.isSome_of_eq_some hresult
        obtain rfl := Call.eq_nil_of_result? hended
        have hj := Call.eq_length_of_result?_receiving hended
        rw [Call.sendAll_nil, Call.receiving, if_pos hj] at hresult
        refine ⟨value, h.value_eq, (Option.some.inj hresult).symm, ?_⟩
        intro child hchild
        have hsent := h.relayed child hchild
        rw [Parcel.chunksTo_nil, List.append_nil, h.taken, hj, List.take_length,
          ← Passage.stream_take_succ h.value_eq] at hsent
        rw [hsent]
        exact ⟨List.prefix_refl _, fun _ => rfl⟩
      · cases hjob

/-- A task that relays a stream has sent each child no more than it has taken. -/
theorem Relays.sent_prefix_taken (h : e.Relays client parent values history jobs) {child : String}
    (hchild : child ∈ e.place.children) :
    sentTo e.operator child history <+: takenFrom e.operator parent history := by
  rcases h with ⟨_, _, hsent⟩ | ⟨past, value, j, parcels, h, _⟩
  · rw [hsent child hchild]
    exact ⟨_, rfl⟩
  · exact ⟨_, h.relayed child hchild⟩

/-! ## Sending -/

/-- The calls of a task that sends some values. -/
def emissions (e : Endpoint type.Carrier) (client : Nat) (values : List type.Carrier) :
    List (Job (Option type.Carrier)) :=
  values.map fun value => .new client type e ((e.sendBroadcast value).map fun _ => none)

/-- The call that sends a value, with some parcels still to be sent. -/
def emission (e : Endpoint type.Carrier) (client : Nat) (value : type.Carrier)
    (parcels : List Parcel) : Job (Option type.Carrier) :=
  .running client type e ((e.sendBroadcast value).map fun _ => none)
    (.sendAll parcels (.finished (.ok none)))

/-- A task that sends the value after those of its past calls. -/
structure Sending (e : Endpoint type.Carrier) (values : List type.Carrier) (history : List Act)
    (past : List (Job (Option type.Carrier))) (value : type.Carrier) (parcels : List Parcel) :
    Prop where
  value_eq : values[past.length]? = some value
  destinations : ∀ parcel ∈ parcels, parcel.destination ∈ e.place.children
  sent : ∀ child ∈ e.place.children,
    sentTo e.operator child history ++ Parcel.chunksTo child parcels =
      e.passage.stream (values.take (past.length + 1))

/-- How far a task has come that sends some values. -/
def Sends (e : Endpoint type.Carrier) (client : Nat) (values : List type.Carrier)
    (history : List Act) (jobs : List (Job (Option type.Carrier))) : Prop :=
  jobs = [] ∧ (∀ child ∈ e.place.children, sentTo e.operator child history = []) ∨
    ∃ past value parcels, e.Sending values history past value parcels ∧
      jobs = past ++ [e.emission client value parcels]

theorem Sends.last {past : List (Job (Option type.Carrier))} {job : Job (Option type.Carrier)}
    (h : e.Sends client values history (past ++ [job])) :
    ∃ value parcels, e.Sending values history past value parcels ∧
      job = e.emission client value parcels := by
  rcases h with ⟨hnil, _⟩ | ⟨past', value, parcels, h, hjobs⟩
  · exact absurd hnil (by simp)
  · obtain ⟨rfl, hjob⟩ := List.append_inj' hjobs rfl
    exact ⟨value, parcels, h, List.singleton_inj.1 hjob⟩

theorem map_sendBroadcast {value : type.Carrier} (h : e.passage.RoundTrips value) :
    (e.sendBroadcast value).map (fun _ => (none : Option type.Carrier)) =
      .sendAll (Parcel.toAll e.place.children (e.passage.wire value)) (.finished (.ok none)) := by
  rw [sendBroadcast, Call.sendValue, h.frames_eq]
  exact Call.map_sendAll _ _ _

/-- A task that sends some values makes their stream. -/
theorem sends_of_course (hvalues : ∀ value ∈ values, e.passage.RoundTrips value)
    (hnodup : e.place.children.Nodup) (hknown : ∀ child ∈ e.place.children, known child)
    (h : Course known False (e.emissions client values) history jobs) :
    e.Sends client values history jobs := by
  induction h with
  | start => exact .inl ⟨rfl, fun _ _ => rfl⟩
  | @begin history jobs job _ hended hnext ih =>
    rw [emissions, List.getElem?_map, Option.map_eq_some_iff] at hnext
    obtain ⟨next, hvalue, rfl⟩ := hnext
    have hfresh : Job.new client type e ((e.sendBroadcast next).map fun _ => none) =
        e.emission client next (Parcel.toAll e.place.children (e.passage.wire next)) := by
      rw [emission, Job.running, ← map_sendBroadcast (hvalues next (List.mem_of_getElem? hvalue))]
      rfl
    have hall : ∀ parcel ∈ Parcel.toAll e.place.children (e.passage.wire next),
        parcel.destination ∈ e.place.children :=
      fun parcel hparcel => Parcel.destination_mem_of_mem_toAll hparcel
    rcases ih with ⟨rfl, hsent⟩ | ⟨past, value, parcels, h, rfl⟩
    · refine .inr ⟨[], next, _, ⟨hvalue, hall, ?_⟩, by rw [hfresh]⟩
      intro child hchild
      rw [hsent child hchild, Parcel.chunksTo_toAll hnodup hchild, Passage.stream_take_succ hvalue]
      rfl
    · have hdone : (e.emission client value parcels).result?.isSome = true := hended _ (by simp)
      rw [emission, Job.result?_running] at hdone
      obtain rfl := Call.eq_nil_of_result? hdone
      have hlength : (past ++ [e.emission client value []]).length = past.length + 1 :=
        List.length_append
      refine .inr ⟨_, next, _, ⟨hvalue, hall, ?_⟩, by rw [hfresh]⟩
      intro child hchild
      have hsent := h.sent child hchild
      rw [Parcel.chunksTo_nil, List.append_nil, ← hlength] at hsent
      rw [hsent, Parcel.chunksTo_toAll hnodup hchild, Passage.stream_take_succ hvalue]
  | @send history past job parcel rest _ hsent _ ih =>
    obtain ⟨value, parcels, h, rfl⟩ := ih.last
    obtain ⟨more, rfl, rfl⟩ := Call.eq_sendAll_of_sent? rfl hsent
    refine .inr ⟨past, value, more, ⟨h.value_eq, ?_, ?_⟩, rfl⟩
    · intro other hother
      exact h.destinations other (List.mem_cons_of_mem _ hother)
    · intro child hchild
      rw [← h.sent child hchild]
      exact Parcel.sentTo_append_chunksTo ..
  | @refuse history past job parcel rest error _ hsent hunknown ih =>
    obtain ⟨value, parcels, h, rfl⟩ := ih.last
    obtain ⟨more, rfl, rfl⟩ := Call.eq_sendAll_of_sent? rfl hsent
    exact absurd (hknown _ (h.destinations parcel List.mem_cons_self)) hunknown
  | @take history past job source chunk call _ htake ih =>
    obtain ⟨value, parcels, h, rfl⟩ := ih.last
    obtain rfl := Call.eq_nil_of_take? htake
    cases htake
  | giveUp hhasty => exact hhasty.elim

theorem Sends.sent_prefix_stream (h : e.Sends client values history jobs) {child : String}
    (hchild : child ∈ e.place.children) :
    sentTo e.operator child history <+: e.passage.stream values := by
  rcases h with ⟨_, hsent⟩ | ⟨past, value, parcels, h, _⟩
  · rw [hsent child hchild]
    exact ⟨_, rfl⟩
  · have hpart := e.passage.stream_take_prefix_stream values (past.length + 1)
    rw [← h.sent child hchild] at hpart
    exact (List.prefix_append _ _).trans hpart

end Endpoint

end Collective
