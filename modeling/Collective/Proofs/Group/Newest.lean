import Collective.Group.Usage
import Collective.Proofs.Group.Connection

/-!
# The epoch of a client

A client is given bundles in any order, also an older one behind a newer one. The epoch by which it
stamps and skips messages is that of the newest bundle it has accepted. It never goes back, so it is
the epoch of the installed bundle exactly if no newer one has been accepted.
-/

namespace Collective.Client

variable {c : Client} {bundle : Bundle} {received : List Bundle}

/-! ## What an event changes -/

/-- An event is a bundle for the client, or it changes nothing but the client's mailboxes. -/
theorem step_cases (c : Client) (event : Event) :
    (∃ b, event = .reconfigure b ∧ b.task = c.task) ∨
      (bundlesFor c.task [event] = [] ∧ ∃ mailboxes, c.step event = { c with mailboxes }) := by
  cases event with
  | hear source m => exact .inr ⟨rfl, c.exists_hear_eq source m⟩
  | ask box => exact .inr ⟨rfl, _, rfl⟩
  | take queue =>
    cases hpop : c.mailboxes.pop? queue with
    | none => exact .inr ⟨rfl, c.mailboxes, step_take_of_none hpop⟩
    | some found => exact .inr ⟨rfl, found.2, step_take_of_pop? hpop⟩
  | reconfigure bundle =>
    by_cases htask : bundle.task = c.task
    · exact .inl ⟨bundle, rfl, htask⟩
    · exact .inr ⟨by simp [htask], c.mailboxes, given_of_ne_task htask⟩

/-- Whatever happens to a client, its task stays the same. -/
theorem task_step (c : Client) (event : Event) : (c.step event).task = c.task := by
  cases c.step_cases event with
  | inl h =>
    obtain ⟨b, rfl, htask⟩ := h
    rw [step, given_of_task htask]
    rfl
  | inr h =>
    obtain ⟨-, mailboxes, hstep⟩ := h
    rw [hstep]

theorem task_after (c : Client) (history : List Event) : (c.after history).task = c.task := by
  induction history generalizing c with
  | nil => rfl
  | cons event history ih => rw [after_cons, ih, task_step]

/-- The epoch rises to that of a bundle unless it is later. -/
theorem epoch_raiseEpoch (c : Client) (bundle : Bundle) :
    (c.raiseEpoch bundle).epoch = if c.epoch ≤ bundle.epoch then bundle.epoch else c.epoch :=
  rfl

/-! ## Bundles one after another -/

/-- The installed bundle is the last that has been accepted, and the epoch is that of the newest. -/
structure Follows (c : Client) (received : List Bundle) : Prop where
  last : received.getLast? = some c.bundle
  le : ∀ b ∈ received, b.epoch ≤ c.epoch
  mem : ∃ b ∈ received, b.epoch = c.epoch

/-- A client that has just joined. -/
theorem follows_of_join {manager : Manager Unit} {limit : Option Nat} {names names' : Registry}
    (h : join bundle manager limit names = .ok (c, names')) :
    c.task = bundle.task ∧ c.Follows [bundle] := by
  rw [join] at h
  split at h
  · cases h
  · obtain ⟨rfl, -⟩ := Prod.mk.inj (Except.ok.inj h)
    refine ⟨rfl, rfl, ?_, bundle, List.mem_singleton_self _, rfl⟩
    intro b hb
    obtain rfl := List.mem_singleton.1 hb
    exact UInt64.le_refl _

namespace Follows

/-- One more bundle is installed. -/
theorem given (h : c.Follows received) (htask : bundle.task = c.task) :
    (c.given bundle).Follows (received ++ [bundle]) := by
  rw [given_of_task htask]
  have hepoch := c.epoch_raiseEpoch bundle
  constructor
  · exact List.getLast?_concat
  · intro b hb
    show b.epoch ≤ (c.raiseEpoch bundle).epoch
    rw [hepoch]
    cases List.mem_append.1 hb with
    | inl hold =>
      split
      · next hle => exact UInt64.le_trans (h.le b hold) hle
      · exact h.le b hold
    | inr hnew =>
      obtain rfl := List.mem_singleton.1 hnew
      split
      · exact UInt64.le_refl _
      · next hlt => exact (UInt64.le_total _ _).resolve_left hlt
  · show ∃ b ∈ received ++ [bundle], b.epoch = (c.raiseEpoch bundle).epoch
    rw [hepoch]
    split
    · exact ⟨bundle, List.mem_append_right _ (List.mem_singleton_self _), rfl⟩
    · obtain ⟨b, hb, heq⟩ := h.mem
      exact ⟨b, List.mem_append_left _ hb, heq⟩

/-- The step lemma. -/
theorem step (h : c.Follows received) (event : Event) :
    (c.step event).Follows (received ++ bundlesFor c.task [event]) := by
  cases c.step_cases event with
  | inl hbundle =>
    obtain ⟨b, rfl, htask⟩ := hbundle
    rw [bundlesFor_reconfigure, if_pos htask]
    exact h.given htask
  | inr hother =>
    obtain ⟨hnone, mailboxes, hstep⟩ := hother
    rw [hnone, List.append_nil, hstep]
    exact ⟨h.last, h.le, h.mem⟩

/-- The run lemma. -/
theorem after (h : c.Follows received) (history : List Event) :
    (c.after history).Follows (received ++ bundlesFor c.task history) := by
  induction history generalizing c received with
  | nil => simpa [bundlesFor] using h
  | cons event history ih =>
    have hnext := ih (h.step event)
    rw [task_step, List.append_assoc, ← bundlesFor_append] at hnext
    exact hnext

/-- The epoch is that of the installed bundle unless a newer one has been accepted. -/
theorem epoch_eq_iff (h : c.Follows received) :
    c.epoch = c.bundle.epoch ↔ ∀ b ∈ received, b.epoch ≤ c.bundle.epoch := by
  constructor
  · intro heq
    rw [← heq]
    exact h.le
  · intro hle
    obtain ⟨b, hb, heq⟩ := h.mem
    refine UInt64.le_antisymm ?_ (h.le _ (List.mem_of_getLast? h.last))
    rw [← heq]
    exact hle b hb

/-- Of bundles that come in the order of their epochs the last one is the newest. -/
theorem epoch_eq_of_pairwise (h : c.Follows received)
    (hrising : received.Pairwise (·.epoch ≤ ·.epoch)) : c.epoch = c.bundle.epoch := by
  rw [h.epoch_eq_iff]
  intro b hb
  obtain ⟨earlier, rfl⟩ := List.getLast?_eq_some_iff.1 h.last
  cases List.mem_append.1 hb with
  | inl hearlier =>
    exact (List.pairwise_append.1 hrising).2.2 b hearlier _ (List.mem_singleton_self _)
  | inr hlast =>
    obtain rfl := List.mem_singleton.1 hlast
    exact UInt64.le_refl _

end Follows

/-- Whatever bundles a client is given after it has joined, and whatever reaches it or is taken out
of its queues in between: it stamps and skips messages by the epoch of the newest bundle that it has
accepted. That is the epoch of the installed one exactly if none of the others is newer, and so
always if they come in the order of their epochs. A bundle of another task is refused, and the
client stays as it is. -/
theorem epoch_newest {manager : Manager Unit} {limit : Option Nat} {names names' : Registry}
    (hjoin : join bundle manager limit names = .ok (c, names')) (history : List Event) :
    (∃ newest ∈ accepted bundle history,
      (∀ b ∈ accepted bundle history, b.epoch ≤ newest.epoch) ∧
      (c.after history).epoch = newest.epoch ∧
      (∀ operator parcel, ((c.after history).stamp operator parcel).epoch = newest.epoch) ∧
      (∀ {queue : Nat} {m : Message} {rest : Mailboxes},
        (c.after history).mailboxes.pop? queue = some (m, rest) →
          (c.after history).pop? queue = some ({ c.after history with mailboxes := rest },
            if newest.epoch ≤ m.epoch then some m else none))) ∧
    (c.after history).bundle ∈ accepted bundle history ∧
    ((c.after history).epoch = (c.after history).bundle.epoch ↔
      ∀ b ∈ accepted bundle history, b.epoch ≤ (c.after history).bundle.epoch) ∧
    ((accepted bundle history).Pairwise (·.epoch ≤ ·.epoch) →
      (c.after history).epoch = (c.after history).bundle.epoch) ∧
    ∀ other : Bundle, other.task ≠ bundle.task →
      (c.after history).reconfigure other = .error (.membership (.unknown other.task)) ∧
      (c.after history).step (.reconfigure other) = c.after history := by
  obtain ⟨htask, hjoined⟩ := follows_of_join hjoin
  have h : (c.after history).Follows (accepted bundle history) := by
    have hafter := hjoined.after history
    rwa [htask] at hafter
  obtain ⟨newest, hmem, hnewest⟩ := h.mem
  refine ⟨⟨newest, hmem, ?_, hnewest.symm, ?_, ?_⟩, List.mem_of_getLast? h.last, h.epoch_eq_iff,
    h.epoch_eq_of_pairwise, ?_⟩
  · rw [hnewest]
    exact h.le
  · intro operator parcel
    exact hnewest.symm
  · intro queue m rest hpop
    rw [pop?, hpop, hnewest]
    rfl
  · intro other hother
    have hforeign : other.task ≠ (c.after history).task := by
      rw [task_after, htask]
      exact hother
    exact ⟨if_neg hforeign, given_of_ne_task hforeign⟩

/-! A task leaves. The new bundle of another one is followed by its old one, which has been delayed,
and by one that is not for it. -/

namespace Delayed

def coordinator : Coordinator :=
  .after ⟨"g", 2, 0, [], .empty⟩ [.operator "model" (.plain .broadcast "R"),
    .member (.add "R"), .member (.add "A"), .member (.add "B")]

def renewed : Coordinator := coordinator.after [.member (.remove "B")]

def old : Bundle := (coordinator.bundle "A").toOption.get (by decide +kernel)

def new : Bundle := (renewed.bundle "A").toOption.get (by decide +kernel)

def foreign : Bundle := (renewed.bundle "R").toOption.get (by decide +kernel)

def manager : Manager Unit := .new (some (Session.localHome ["A"] "A")) 1024

def joined : Client × Registry :=
  (join old manager none .empty).toOption.get (by decide +kernel)

def history : List Event := [.reconfigure new, .ask ⟨"model", "R"⟩, .reconfigure old]

/-- The old bundle is installed and the epoch of the new one stays. -/
theorem epoch_newest_delayed : join old manager none .empty = .ok joined ∧
    (accepted old (history ++ [.reconfigure foreign])).map (·.epoch) = [0, 1, 0] ∧
    (joined.1.after (history ++ [.reconfigure foreign])).bundle = old ∧
    (joined.1.after (history ++ [.reconfigure foreign])).epoch = 1 ∧
    ∃ newest ∈ accepted old (history ++ [.reconfigure foreign]), newest = new ∧
      (joined.1.after (history ++ [.reconfigure foreign])).epoch = newest.epoch := by
  have hjoin : join old manager none .empty = .ok joined := by decide +kernel
  obtain ⟨⟨newest, hmem, hnewest, hepoch, -⟩, -⟩ :=
    epoch_newest hjoin (history ++ [.reconfigure foreign])
  refine ⟨hjoin, by decide +kernel, by decide +kernel, by decide +kernel, newest, hmem, ?_, hepoch⟩
  have haccepted : accepted old (history ++ [.reconfigure foreign]) = [old, new, old] := by
    decide +kernel
  have hle : new.epoch ≤ newest.epoch := hnewest new (by rw [haccepted]; simp)
  have hold : ¬ new.epoch ≤ old.epoch := by decide +kernel
  have hcases : newest = old ∨ newest = new := by
    rw [haccepted] at hmem
    simp at hmem
    tauto
  cases hcases with
  | inl h =>
    rw [h] at hle
    exact absurd hle hold
  | inr h => exact h

/-- The epoch of a client is not always that of the bundle that is installed. -/
theorem installed_epoch_behind : ¬ ∀ {bundle : Bundle} {manager : Manager Unit}
    {limit : Option Nat} {names names' : Registry} {c : Client},
    join bundle manager limit names = .ok (c, names') → ∀ history : List Event,
      (∀ b, Event.reconfigure b ∈ history → b.task = bundle.task) →
        (c.after history).epoch = (c.after history).bundle.epoch := by
  intro hagree
  have hjoin : join old manager none .empty = .ok joined := by decide +kernel
  have hbehind : ¬ (joined.1.after history).epoch = (joined.1.after history).bundle.epoch := by
    decide +kernel
  refine hbehind (hagree hjoin history ?_)
  intro b hb
  have hgiven : b = new ∨ b = old := by simpa [history] using hb
  cases hgiven with
  | inl h => rw [h]; decide +kernel
  | inr h => rw [h]

end Delayed

end Collective.Client
