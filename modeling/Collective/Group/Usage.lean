import Collective.Group.Client

/-!
# A client in use

Seen alone, a client is changed by messages, receivers and bundles, in any order: a message reaches
its manager, a receiver asks for a queue or takes a message out of one, or the client is given a
bundle, which it refuses if it is one of another task. `after` is the client that a history of such
events leaves behind.
-/

namespace Collective.Client

/-- What happens to a client. -/
inductive Event where
  /-- A message reaches the client's manager from a source. -/
  | hear (source : Address) (m : Message)
  /-- A receiver asks for the queue of a mailbox. -/
  | ask (box : Mailbox)
  /-- A receiver that has been given a queue takes a message out of it, if there is one. -/
  | take (queue : Nat)
  /-- The client is given a bundle. -/
  | reconfigure (bundle : Bundle)
  deriving DecidableEq, Repr

/-- The client that has been given a bundle, whether it has refused it or not. -/
def given (c : Client) (bundle : Bundle) : Client :=
  match c.reconfigure bundle with
  | .ok d => d
  | .error _ => c

/-- The client after an event. -/
def step (c : Client) : Event → Client
  | .hear source m => c.hear source m
  | .ask box => (c.openQueue box).1
  | .take queue => ((c.pop? queue).map (·.1)).getD c
  | .reconfigure bundle => c.given bundle

/-- The client that a history of events leaves behind. -/
def after (c : Client) (history : List Event) : Client := history.foldl step c

/-- The bundles that a history gives to a client of a task, without those of other tasks. -/
def bundlesFor (task : String) (history : List Event) : List Bundle :=
  history.filterMap fun
    | .reconfigure bundle => if bundle.task = task then some bundle else none
    | _ => none

/-- The bundles that a client has accepted that joined with one, in order. -/
def accepted (bundle : Bundle) (history : List Event) : List Bundle :=
  bundle :: bundlesFor bundle.task history

/-- What a receiver takes out of a queue in an event, whether it is skipped or not. -/
def taking (queue : Nat) (c : Client) : Event → List Message
  | .take number => if number = queue then ((c.mailboxes.pop? number).map (·.1)).toList else []
  | _ => []

/-- What receivers take out of a queue in a history, in order. -/
def takings (queue : Nat) : Client → List Event → List Message
  | _, [] => []
  | c, event :: history => c.taking queue event ++ (c.step event).takings queue history

@[simp] theorem after_nil (c : Client) : c.after [] = c := rfl

@[simp] theorem after_cons (c : Client) (event : Event) (history : List Event) :
    c.after (event :: history) = (c.step event).after history := rfl

theorem after_append (c : Client) (early late : List Event) :
    c.after (early ++ late) = (c.after early).after late := by
  simp [after]

theorem bundlesFor_append (task : String) (early late : List Event) :
    bundlesFor task (early ++ late) = bundlesFor task early ++ bundlesFor task late :=
  List.filterMap_append

@[simp] theorem bundlesFor_reconfigure (task : String) (bundle : Bundle) :
    bundlesFor task [.reconfigure bundle] = if bundle.task = task then [bundle] else [] := by
  by_cases h : bundle.task = task <;> simp [bundlesFor, h]

/-- The first message of a queue is taken out of it. -/
theorem step_take_of_pop? {c : Client} {queue : Nat} {found : Message × Mailboxes}
    (h : c.mailboxes.pop? queue = some found) :
    c.step (.take queue) = { c with mailboxes := found.2 } := by
  rw [step, pop?, h]
  rfl

/-- There is nothing to take. -/
theorem step_take_of_none {c : Client} {queue : Nat} (h : c.mailboxes.pop? queue = none) :
    c.step (.take queue) = c := by
  rw [step, pop?, h]
  rfl

/-- A bundle of the client's task is installed. -/
theorem given_of_task {c : Client} {bundle : Bundle} (h : bundle.task = c.task) :
    c.given bundle = ((c.dropStrangers bundle).raiseEpoch bundle).install bundle := by
  rw [given, reconfigure, if_pos h]

/-- The mailboxes of strangers are dropped. -/
theorem mailboxes_given {c : Client} {bundle : Bundle} (h : bundle.task = c.task) :
    (c.given bundle).mailboxes = c.mailboxes.retain bundle.neighbors := by
  rw [given_of_task h]
  rfl

/-- A bundle of another task changes nothing. -/
theorem given_of_ne_task {c : Client} {bundle : Bundle} (h : bundle.task ≠ c.task) :
    c.given bundle = c := by
  rw [given, reconfigure, if_neg h]

end Collective.Client
