import Collective.Proofs.Group.History
import Collective.Proofs.Pipeline.Passage

/-!
# Calls that send and receive values

A call that has chunks to send sends them in order before anything else. A call that receives a
value has, after any number of its chunks, read as many; each chunk makes it relay the chunk and go
on, and with the last one it has the value.
-/

namespace Collective

namespace Parcel

variable {destination : String}

/-- The chunks among some parcels that go to a task. -/
def chunksTo (destination : String) (parcels : List Parcel) : List (Chunk Bytes) :=
  parcels.filterMap fun parcel =>
    if parcel.destination = destination then some parcel.chunk else none

/-- Some chunks for each of some tasks, for one after the other. -/
def toEach (destinations : List String) (chunks : String → List (Chunk Bytes)) : List Parcel :=
  destinations.flatMap fun destination => (chunks destination).map (Parcel.mk destination)

/-- The same chunks for each of some tasks, for one after the other. -/
def toAll (destinations : List String) (chunks : List (Chunk Bytes)) : List Parcel :=
  destinations.flatMap fun destination => chunks.map (Parcel.mk destination)

@[simp] theorem chunksTo_nil : chunksTo destination [] = [] := rfl

theorem chunksTo_cons (parcel : Parcel) (parcels : List Parcel) :
    chunksTo destination (parcel :: parcels) =
      (if parcel.destination = destination then [parcel.chunk] else []) ++
        chunksTo destination parcels := by
  rw [chunksTo, List.filterMap_cons, ← chunksTo]
  split <;> simp_all

theorem chunksTo_append (parcels more : List Parcel) :
    chunksTo destination (parcels ++ more) =
      chunksTo destination parcels ++ chunksTo destination more :=
  List.filterMap_append

theorem chunksTo_map_mk (other : String) (chunks : List (Chunk Bytes)) :
    chunksTo destination (chunks.map (Parcel.mk other)) =
      if other = destination then chunks else [] := by
  induction chunks with
  | nil =>
    rw [List.map_nil, chunksTo_nil]
    split <;> rfl
  | cons chunk rest ih =>
    rw [List.map_cons, chunksTo_cons, ih]
    split <;> rfl

theorem chunksTo_toEach_of_not_mem {destinations : List String} (h : destination ∉ destinations)
    (chunks : String → List (Chunk Bytes)) :
    chunksTo destination (toEach destinations chunks) = [] := by
  induction destinations with
  | nil => rfl
  | cons first rest ih =>
    have hne : ¬ first = destination := by
      rintro rfl
      exact h List.mem_cons_self
    rw [toEach, List.flatMap_cons, ← toEach, chunksTo_append, chunksTo_map_mk, if_neg hne,
      List.nil_append]
    apply ih
    intro hmem
    exact h (List.mem_cons_of_mem _ hmem)

/-- Each of the tasks is sent its chunks once. -/
theorem chunksTo_toEach {destinations : List String} (hnodup : destinations.Nodup)
    (hmem : destination ∈ destinations) (chunks : String → List (Chunk Bytes)) :
    chunksTo destination (toEach destinations chunks) = chunks destination := by
  induction destinations with
  | nil => cases hmem
  | cons first rest ih =>
    obtain ⟨hfirst, hrest⟩ := List.nodup_cons.1 hnodup
    rw [toEach, List.flatMap_cons, ← toEach, chunksTo_append, chunksTo_map_mk]
    rcases List.mem_cons.1 hmem with rfl | hmem
    · rw [if_pos rfl, chunksTo_toEach_of_not_mem hfirst, List.append_nil]
    · have hne : ¬ first = destination := by
        rintro rfl
        exact hfirst hmem
      rw [if_neg hne, List.nil_append, ih hrest hmem]

theorem destination_mem_of_mem_toEach {destinations : List String}
    {chunks : String → List (Chunk Bytes)} {parcel : Parcel}
    (h : parcel ∈ toEach destinations chunks) : parcel.destination ∈ destinations := by
  obtain ⟨child, hchild, hmem⟩ := List.mem_flatMap.1 h
  obtain ⟨_, _, rfl⟩ := List.mem_map.1 hmem
  exact hchild

/-- Each of the tasks is sent the chunks once. -/
theorem chunksTo_toAll {destinations : List String} (hnodup : destinations.Nodup)
    (hmem : destination ∈ destinations) (chunks : List (Chunk Bytes)) :
    chunksTo destination (toAll destinations chunks) = chunks :=
  chunksTo_toEach hnodup hmem fun _ => chunks

theorem destination_mem_of_mem_toAll {destinations : List String} {chunks : List (Chunk Bytes)}
    {parcel : Parcel} (h : parcel ∈ toAll destinations chunks) :
    parcel.destination ∈ destinations :=
  destination_mem_of_mem_toEach h

/-- Sending the first of some parcels moves its chunk from what is to be sent to what has been. -/
theorem sentTo_append_chunksTo (operator : String) (history : List Act) (parcel : Parcel)
    (parcels : List Parcel) :
    Act.sentTo operator destination (history ++ [.send operator parcel]) ++
        chunksTo destination parcels =
      Act.sentTo operator destination history ++ chunksTo destination (parcel :: parcels) := by
  rw [Act.sentTo_append_send, chunksTo_cons, List.append_assoc]
  simp only [true_and]

end Parcel

namespace Passage

variable {α : Type} {p : Passage α} {source : String} {value : α} {j : Nat}

/-- What has come from a task after `j` chunks of a value. -/
def arrived (p : Passage α) (source : String) (value : α) (j : Nat) : Arrival α :=
  ⟨source, ⟨UInt64.ofNat j, false⟩, (p.converter.split value).take j⟩

/-- The chunks of a value come in the order in which the assembler accepts them. -/
theorem accept_arrived (hp : p.converter.Lawful) {chunk : Chunk Bytes}
    (hchunk : (p.wire value)[j]? = some chunk) :
    (p.arrived source value j).assembler.accept chunk.header =
      .ok ⟨UInt64.ofNat (j + 1), j + 1 == (p.wire value).length⟩ := by
  obtain ⟨hj, rfl⟩ := List.getElem?_eq_some_iff.1 hchunk
  rw [length_wire] at hj
  have hheader : (p.wire value)[j].header = ⟨UInt64.ofNat j, j + 1 == (p.wire value).length⟩ := by
    rw [length_wire, ← hp.header_eq hj]
    exact congrArg Chunk.header (List.getElem_map p.written)
  rw [hheader, Assembler.accept]
  simp [arrived]

/-- A chunk of the value is read, and the last one completes it. -/
theorem RoundTrips.absorb_arrived (hp : p.converter.Lawful) (h : p.RoundTrips value)
    {chunk : Chunk Bytes} (hchunk : (p.wire value)[j]? = some chunk) :
    (p.arrived source value j).absorb p ⟨UInt64.ofNat (j + 1), j + 1 == (p.wire value).length⟩
        chunk =
      .ok (if j + 1 = (p.wire value).length then .complete value
        else .underway (p.arrived source value (j + 1))) := by
  obtain ⟨hj, rfl⟩ := List.getElem?_eq_some_iff.1 hchunk
  rw [length_wire] at hj
  have hwritten : (p.wire value)[j] = p.written (p.converter.split value)[j] := List.getElem_map _
  have htake : (p.arrived source value j).chunks ++
      [⟨(p.wire value)[j].header, (p.converter.split value)[j].data⟩] =
      (p.converter.split value).take (j + 1) := by
    rw [hwritten]
    exact (List.take_succ_eq_append_getElem hj).symm
  rw [Arrival.absorb, hwritten, h.decode_written (List.getElem_mem hj), ← hwritten]
  dsimp only
  rw [htake, length_wire]
  by_cases hlast : j + 1 = (p.converter.split value).length
  · rw [if_pos (beq_iff_eq.2 hlast), if_pos hlast, List.take_of_length_le (Nat.le_of_eq hlast.symm),
      hp.join_split]
  · rw [if_neg (by simpa using hlast), if_neg hlast, beq_false_of_ne hlast]
    rfl

end Passage

namespace Call

variable {α β : Type} {p : Passage α} {source : String} {value : α} {j : Nat} {relay : List String}
  {next : α → Call α β}

/-! ### Sending -/

theorem eq_sendAll_of_sent? {parcels : List Parcel} {rest call : Call α β} {parcel : Parcel}
    (hrest : rest.sent? = none) (h : (sendAll parcels rest).sent? = some (parcel, call)) :
    ∃ more, parcels = parcel :: more ∧ call = sendAll more rest := by
  cases parcels with
  | nil =>
    rw [sendAll_nil, hrest] at h
    cases h
  | cons first more =>
    obtain ⟨rfl, rfl⟩ := Prod.mk.inj (Option.some.inj h)
    exact ⟨more, rfl, rfl⟩

/-- A call that sends each of some tasks a value of its own sends the chunks of these values, if all
of them can be written. -/
theorem sendEach_eq (hencode : ∀ data, ∃ bytes, p.codec.encode data = .ok bytes)
    (values : List (String × α)) (rest : Call α β) :
    sendEach p values rest =
      sendAll (values.flatMap fun (destination, value) =>
        (p.wire value).map (Parcel.mk destination)) rest := by
  induction values with
  | nil => rfl
  | cons first values ih =>
    obtain ⟨destination, value⟩ := first
    have hframes : p.frames value = .ok (p.wire value) :=
      Passage.frames_eq_of_encode fun chunk _ => hencode chunk.data
    rw [sendEach, List.foldr_cons, ← sendEach, ih]
    dsimp only
    rw [sendValue, hframes]
    dsimp only
    rw [List.flatMap_singleton, List.flatMap_cons]
    exact (List.foldr_append ..).symm

theorem eq_nil_of_take? {parcels : List Parcel} {rest call : Call α β} {chunk : Chunk Bytes}
    (h : (sendAll parcels rest).take? p source chunk = some call) : parcels = [] := by
  cases parcels with
  | nil => rfl
  | cons first more => cases h

theorem eq_nil_of_result? {parcels : List Parcel} {rest : Call α β}
    (h : (sendAll parcels rest).result?.isSome = true) : parcels = [] := by
  cases parcels with
  | nil => rfl
  | cons first more => cases h

theorem map_sendAll {γ : Type} (f : β → γ) (parcels : List Parcel) (rest : Call α β) :
    (sendAll parcels rest).map f = sendAll parcels (rest.map f) := by
  induction parcels with
  | nil => rfl
  | cons parcel parcels ih => exact congrArg (Call.send parcel) ih

/-! ### Receiving -/

/-- A call that receives a value and relays it, after `j` chunks and once they have been relayed. -/
def receiving (p : Passage α) (source : String) (relay : List String) (next : α → Call α β)
    (value : α) (j : Nat) : Call α β :=
  if j = (p.wire value).length then next value
  else .receive (p.arrived source value j) relay next

theorem receiving_zero (hp : p.converter.Lawful) (source : String) (relay : List String)
    (next : α → Call α β) (value : α) :
    receiving p source relay next value 0 = .receive (.from source) relay next := by
  apply if_neg
  intro h
  exact p.wire_ne_nil hp value (List.length_eq_zero_iff.1 h.symm)

theorem sent?_receiving (hnext : (next value).sent? = none) :
    (receiving p source relay next value j).sent? = none := by
  rw [receiving]
  split
  · exact hnext
  · rfl

/-- A call that takes a chunk has not received the whole value, and the chunk comes from the task
that sends it. -/
theorem of_take?_receiving {other : String} {chunk : Chunk Bytes} {call : Call α β}
    (hnext : (next value).take? p other chunk = none)
    (h : (receiving p source relay next value j).take? p other chunk = some call) :
    other = source ∧ j ≠ (p.wire value).length := by
  rw [receiving] at h
  split at h
  · rw [hnext] at h
    cases h
  · next hj =>
    rw [take?] at h
    split at h
    · next hsource => exact ⟨hsource.symm, hj⟩
    · cases h

theorem eq_length_of_result?_receiving
    (h : (receiving p source relay next value j).result?.isSome = true) :
    j = (p.wire value).length := by
  rw [receiving] at h
  split at h
  · next hj => exact hj
  · cases h

/-- With each chunk of the value the call comes to relay the chunk and then to receive the rest. -/
theorem take?_receiving (hp : p.converter.Lawful) (h : p.RoundTrips value) {chunk : Chunk Bytes}
    (hchunk : (p.wire value)[j]? = some chunk) :
    (receiving p source relay next value j).take? p source chunk =
      some (sendAll (Parcel.toAll relay [chunk])
        (receiving p source relay next value (j + 1))) := by
  have hj : j ≠ (p.wire value).length :=
    Nat.ne_of_lt (List.getElem?_eq_some_iff.1 hchunk).1
  have hsource : (p.arrived source value j).source = source := rfl
  rw [receiving, if_neg hj, take?, if_pos hsource, p.accept_arrived hp hchunk]
  dsimp only
  rw [h.absorb_arrived hp hchunk, receiving, Parcel.toAll, List.map_eq_flatMap]
  by_cases hlast : j + 1 = (p.wire value).length
  · rw [if_pos hlast, if_pos hlast]
    rfl
  · rw [if_neg hlast, if_neg hlast]
    rfl

end Call

end Collective
