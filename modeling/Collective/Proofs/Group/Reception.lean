import Collective.Proofs.Group.Gather
import Collective.Proofs.Pipeline.Alignment

/-!
# Receptions from broken streams

A reception that fails leaves the rest of a value in the mailbox, and a send that fails leaves the
first chunks of one. Whatever the next reception finds there, it never puts chunks of two sends
together: either it has taken all chunks of one send, or it comes to an error. `Comes` says what a
call can come to when its sends may fail and it may give up at any time.
-/

namespace Collective

/-! ## What a call can come to -/

namespace Call

variable {α β : Type} {p : Passage α} {streams taken : String → List (Chunk Bytes)}
  {begun call : Call α β} {source : String}

/-- A call comes to another one: it takes what is there for it from each task, chunk by chunk, it
sends and may fail to, and it may give up. `taken` is what it has taken from each task. -/
inductive Comes (p : Passage α) (streams : String → List (Chunk Bytes)) (begun : Call α β) :
    (taken : String → List (Chunk Bytes)) → Call α β → Prop
  | start : Comes p streams begun (fun _ => []) begun
  | take {taken : String → List (Chunk Bytes)} {call next : Call α β} {source : String}
      {chunk : Chunk Bytes} :
    Comes p streams begun taken call → taken source ++ [chunk] <+: streams source →
      call.take? p source chunk = some next →
      Comes p streams begun (Function.update taken source (taken source ++ [chunk])) next
  | send {taken : String → List (Chunk Bytes)} {call next : Call α β} {parcel : Parcel} :
    Comes p streams begun taken call → call.sent? = some (parcel, next) →
      Comes p streams begun taken next
  | refuse {taken : String → List (Chunk Bytes)} {call next : Call α β} {parcel : Parcel}
      (e : GroupError) :
    Comes p streams begun taken call → call.sent? = some (parcel, next) →
      Comes p streams begun taken (.fail e)
  | giveUp {taken : String → List (Chunk Bytes)} {call : Call α β} {source : String}
      (e : GroupError) :
    Comes p streams begun taken call → source ∈ call.awaits → Comes p streams begun taken (.fail e)

/-- What has been taken from a task is the front of what has been there. -/
theorem Comes.taken_prefix (h : Comes p streams begun taken call) (source : String) :
    taken source <+: streams source := by
  induction h with
  | start => exact List.nil_prefix
  | @take taken call next origin chunk _ hpart _ ih =>
    by_cases hsource : source = origin
    · subst hsource
      rwa [Function.update_self]
    · rwa [Function.update_of_ne hsource]
  | send _ _ ih => exact ih
  | refuse _ _ _ ih => exact ih
  | giveUp _ _ _ ih => exact ih

theorem sendAll_append (parcels more : List Parcel) (rest : Call α β) :
    sendAll (parcels ++ more) rest = sendAll parcels (sendAll more rest) :=
  List.foldr_append

end Call

/-! ## One value -/

/-- What has come from a task is what the assembler has accepted of the chunks taken from it. -/
inductive Incoming.Collects {α : Type} (source : String) (taken : List (Chunk Bytes)) :
    Incoming α → Prop
  | underway {arrival : Arrival α} : arrival.source = source →
    Assembler.start.acceptAll (taken.map (·.header)) = .ok arrival.assembler →
    arrival.assembler.complete = false → Collects source taken (.underway arrival)
  | complete {value : α} : Assembler.Completes (taken.map (·.header)) →
    Collects source taken (.complete value)

/-- A chunk that is accepted and can be read is collected. -/
theorem Incoming.Collects.absorb {α : Type} {p : Passage α} {source : String}
    {taken : List (Chunk Bytes)} {arrival : Arrival α} {assembler : Assembler}
    {chunk : Chunk Bytes} {new : Incoming α} (h : Collects source taken (.underway arrival))
    (haccept : arrival.assembler.accept chunk.header = .ok assembler)
    (habsorb : arrival.absorb p assembler chunk = .ok new) :
    Collects source (taken ++ [chunk]) new := by
  cases h with
  | underway hsource hall hopen =>
    have hmore : Assembler.start.acceptAll ((taken ++ [chunk]).map (·.header)) =
        .ok assembler := by
      rw [List.map_append, List.map_singleton, Assembler.acceptAll_append_singleton, hall]
      exact haccept
    rw [Arrival.absorb] at habsorb
    split at habsorb
    · cases habsorb
    · dsimp only at habsorb
      split at habsorb
      · next hend =>
        split at habsorb
        · obtain rfl := Except.ok.inj habsorb
          exact .complete ⟨assembler, hmore, hend⟩
        · cases habsorb
      · next hend =>
        obtain rfl := Except.ok.inj habsorb
        exact .underway hsource hmore (by simpa using hend)

namespace Call

variable {α β : Type} {p : Passage α} {streams taken : String → List (Chunk Bytes)}
  {call : Call α β} {source : String} {relay sources : List String}

/-- How far a reception has come: chunks are still to come, or all have been taken, or it has
failed. In each case something may still have to be sent. -/
inductive Receives (source : String) (relay : List String) (outcome : α → Outcome β)
    (taken : List (Chunk Bytes)) : Call α β → Prop
  | underway {parcels : List Parcel} {arrival : Arrival α} :
    Incoming.Collects source taken (.underway arrival) →
      Receives source relay outcome taken
        (.sendAll parcels (.receive arrival relay fun value => (outcome value).call))
  | complete {parcels : List Parcel} {result : Except GroupError β} :
    Assembler.Completes (taken.map (·.header)) →
      Receives source relay outcome taken (.sendAll parcels (.finished result))
  | failed {parcels : List Parcel} {e : GroupError} :
    Receives source relay outcome taken (.sendAll parcels (.fail e))

theorem Receives.fail {outcome : α → Outcome β} {received : List (Chunk Bytes)} (e : GroupError) :
    Receives source relay outcome received (.fail e) := by
  rw [← sendAll_nil (.fail e)]
  exact .failed

theorem Receives.take {outcome : α → Outcome β} {received : List (Chunk Bytes)} {origin : String}
    {chunk : Chunk Bytes} {next : Call α β} (h : Receives source relay outcome received call)
    (htake : call.take? p origin chunk = some next) :
    origin = source ∧ Receives source relay outcome (received ++ [chunk]) next := by
  cases h with
  | @underway parcels arrival hcollects =>
    obtain rfl := eq_nil_of_take? htake
    rw [sendAll_nil, take?] at htake
    split at htake
    · next hsource =>
      refine ⟨?_, ?_⟩
      · cases hcollects with
        | underway hown => rw [← hsource, hown]
      · obtain rfl := Option.some.inj htake
        cases haccept : arrival.assembler.accept chunk.header with
        | error e => exact .fail _
        | ok assembler =>
          dsimp only
          cases habsorb : arrival.absorb p assembler chunk with
          | error e => exact .failed
          | ok new =>
            have hmore := hcollects.absorb haccept habsorb
            cases new with
            | underway arrival => exact .underway hmore
            | complete value =>
              cases hmore with
              | complete hend =>
                dsimp only
                rw [Outcome.call, ← sendAll_append]
                exact .complete hend
    · cases htake
  | complete =>
    obtain rfl := eq_nil_of_take? htake
    cases htake
  | failed =>
    obtain rfl := eq_nil_of_take? htake
    cases htake

theorem Receives.send {outcome : α → Outcome β} {received : List (Chunk Bytes)} {parcel : Parcel}
    {next : Call α β} (h : Receives source relay outcome received call)
    (hsent : call.sent? = some (parcel, next)) : Receives source relay outcome received next := by
  cases h with
  | underway hcollects =>
    obtain ⟨more, rfl, rfl⟩ := eq_sendAll_of_sent? rfl hsent
    exact .underway hcollects
  | complete hend =>
    obtain ⟨more, rfl, rfl⟩ := eq_sendAll_of_sent? rfl hsent
    exact .complete hend
  | failed =>
    obtain ⟨more, rfl, rfl⟩ := eq_sendAll_of_sent? rfl hsent
    exact .failed

theorem Comes.receives {outcome : α → Outcome β}
    (h : Comes p streams (.receive (.from source) relay fun value => (outcome value).call) taken
      call) : Receives source relay outcome (taken source) call := by
  induction h with
  | start =>
    rw [← sendAll_nil (.receive _ _ _)]
    exact .underway (.underway rfl rfl rfl)
  | @take taken call next origin chunk _ _ htake ih =>
    obtain ⟨rfl, hnext⟩ := ih.take htake
    rwa [Function.update_self]
  | send _ hsent ih => exact ih.send hsent
  | refuse e => exact .fail e
  | giveUp e => exact .fail e

/-- Whatever several sends have left in a mailbox and wherever a reception begins to read there: if
it comes to the end of a sequence, it has taken all chunks of one send and nothing else; if not, it
can only come to an error. As long as it has not ended it sends, or it takes the next chunk, or it
has to wait for one. -/
theorem received_whole_send {ds : List Dispatch} {k : Nat} {outcome : α → Outcome β}
    (hstream : streams source = (Dispatch.stream ds).drop k)
    (h : Comes p streams (.receive (.from source) relay fun value => (outcome value).call) taken
      call) :
    (Assembler.Completes ((taken source).map (·.header)) →
      ∃ before d after, ds = before ++ d :: after ∧ (Dispatch.stream before).length = k ∧
        d.count = d.chunks.length ∧ taken source = d.chunks) ∧
    (¬ Assembler.Completes ((taken source).map (·.header)) →
      ∀ result, call.result? = some result → ∃ e, result = .error e) ∧
    (call.result? = none → (∃ parcel next, call.sent? = some (parcel, next)) ∨
      ∀ chunk, ∃ next, call.take? p source chunk = some next) := by
  have hreceives := h.receives
  refine ⟨?_, ?_, ?_⟩
  · intro hend
    exact Dispatch.exists_of_completes (hstream ▸ h.taken_prefix source) hend
  · intro hopen result hresult
    cases hreceives with
    | @underway parcels =>
      cases parcels <;> cases hresult
    | complete hend => exact absurd hend hopen
    | @failed parcels e =>
      cases parcels with
      | nil => exact ⟨e, (Option.some.inj hresult).symm⟩
      | cons => cases hresult
  · intro hgoing
    cases hreceives with
    | @underway parcels arrival hcollects =>
      cases parcels with
      | nil =>
        refine .inr fun chunk => exists_take?_of_mem_awaits p ?_ chunk
        cases hcollects with
        | underway hsource =>
          rw [← hsource]
          exact List.mem_singleton_self _
      | cons parcel more => exact .inl ⟨_, _, rfl⟩
    | @complete parcels =>
      cases parcels with
      | nil => cases hgoing
      | cons parcel more => exact .inl ⟨_, _, rfl⟩
    | @failed parcels =>
      cases parcels with
      | nil => cases hgoing
      | cons parcel more => exact .inl ⟨_, _, rfl⟩

/-! A send of three chunks has failed behind the second one, and a send of two follows. A reception
that begins behind the first of them takes the second, and relays it. -/

namespace Broken

abbrev type : PayloadType := .list (.numeric .i32)

def pipeline : Pipeline := .chunked ⟨1, by decide⟩

def passage : Passage type.Carrier :=
  ⟨PayloadType.listCodec (.numeric .i32), type.converter pipeline⟩

def failed : Dispatch where
  type
  pipeline
  codec := passage.codec
  value := [5, 6, 7]
  chunks := passage.wire [5, 6, 7]
  chunks_eq := Passage.frames_eq_of_encode fun _ _ => ⟨_, rfl⟩
  length_lt := by decide +kernel
  count := 2
  count_pos := by decide
  count_le := by decide +kernel

def complete : Dispatch where
  type
  pipeline
  codec := passage.codec
  value := [8, 9]
  chunks := passage.wire [8, 9]
  chunks_eq := Passage.frames_eq_of_encode fun _ _ => ⟨_, rfl⟩
  length_lt := by decide +kernel
  count := 2
  count_pos := by decide
  count_le := by decide +kernel

def stream : List (Chunk Bytes) := (Dispatch.stream [failed, complete]).drop 2

def begun : Call type.Carrier type.Carrier :=
  .receive (.from "P") ["C"] fun value => Outcome.call ⟨[], .ok value⟩

/-- The call after a chunk from the parent, once it has relayed the chunk. -/
def next (call : Call type.Carrier type.Carrier) (chunk : Chunk Bytes) :
    Option (Call type.Carrier type.Carrier) :=
  (call.take? passage "P" chunk).bind fun call => call.sent?.map (·.2)

theorem comes_next {streams taken : String → List (Chunk Bytes)}
    {call after : Call type.Carrier type.Carrier} {chunk : Chunk Bytes}
    (h : Comes passage streams begun taken call) (hpart : taken "P" ++ [chunk] <+: streams "P")
    (hnext : next call chunk = some after) :
    Comes passage streams begun (Function.update taken "P" (taken "P" ++ [chunk])) after := by
  obtain ⟨middle, htake, hsent⟩ := Option.bind_eq_some_iff.1 hnext
  obtain ⟨⟨parcel, rest⟩, hparcel, rfl⟩ := Option.map_eq_some_iff.1 hsent
  exact (h.take hpart htake).send hparcel

def first : Chunk Bytes := stream[0]?.get (by decide +kernel)

def second : Chunk Bytes := stream[1]?.get (by decide +kernel)

def middle : Call type.Carrier type.Carrier := (next begun first).get (by decide +kernel)

def ended : Call type.Carrier type.Carrier := (next middle second).get (by decide +kernel)

theorem received_whole_send_behind_failed : ∃ taken,
    (fun _ => stream) "P" = (Dispatch.stream [failed, complete]).drop 2 ∧
      Comes passage (fun _ => stream) begun taken ended ∧ ended.result? = some (.ok [8, 9]) ∧
      Assembler.Completes ((taken "P").map (·.header)) ∧
      ∃ before d after, [failed, complete] = before ++ d :: after ∧
        (Dispatch.stream before).length = 2 ∧ d.count = d.chunks.length ∧ taken "P" = d.chunks := by
  have hstart : Comes passage (fun _ => stream) begun (fun _ => []) begun := .start
  have hfirst : [] ++ [first] <+: stream := ⟨[second], by decide +kernel⟩
  have hsecond : [first] ++ [second] <+: stream := ⟨[], by decide +kernel⟩
  have hfollows : next begun first = some middle := (Option.some_get _).symm
  have hends : next middle second = some ended := (Option.some_get _).symm
  have hmiddle := comes_next hstart hfirst hfollows
  have hended := comes_next hmiddle hsecond hends
  have hend : Assembler.Completes ([first, second].map (·.header)) :=
    ⟨⟨2, true⟩, by decide +kernel, rfl⟩
  exact ⟨_, rfl, hended, by decide +kernel, hend, (received_whole_send rfl hended).1 hend⟩

end Broken

end Call

end Collective
