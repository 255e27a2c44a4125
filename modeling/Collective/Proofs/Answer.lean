import Mathlib.Data.List.Forall2

/-!
# Answers that may be errors

A sequence of steps that may fail succeeds exactly where each of them does.
-/

namespace Collective

variable {α β ε : Type}

/-- A step after which another one has succeeded has succeeded itself. -/
theorem exists_of_bind_eq_ok {x : Except ε α} {f : α → Except ε β} {b : β}
    (h : x >>= f = .ok b) : ∃ a, x = .ok a ∧ f a = .ok b := by
  cases x with
  | error e => cases h
  | ok a => exact ⟨a, rfl, h⟩

/-- A sequence of two steps succeeds exactly where both do. -/
theorem bind_eq_ok_iff {x : Except ε α} {f : α → Except ε β} {b : β} :
    x >>= f = .ok b ↔ ∃ a, x = .ok a ∧ f a = .ok b :=
  ⟨exists_of_bind_eq_ok, fun ⟨_, hx, hf⟩ => hx ▸ hf⟩

theorem except_map_map {γ : Type} (x : Except ε α) (f : α → β) (g : β → γ) :
    (x.map f).map g = x.map fun a => g (f a) := by
  cases x <;> rfl

/-- A check that gives a result of its own if it succeeds. -/
theorem map_const_eq_ok_iff {x : Except ε Unit} {a b : α} :
    (x.map fun _ => a) = .ok b ↔ x = .ok () ∧ b = a := by
  cases x <;> simp [Except.map, eq_comm]

/-- Collecting succeeds where every part does. -/
theorem mapM_eq_ok {f : α → Except ε β} {g : α → β} {l : List α} (h : ∀ a ∈ l, f a = .ok (g a)) :
    l.mapM f = .ok (l.map g) := by
  induction l with
  | nil => rfl
  | cons a rest ih =>
    rw [List.mapM_cons, h a List.mem_cons_self, ih fun b hb => h b (List.mem_cons_of_mem _ hb)]
    rfl

/-- Collecting fails if some part does, with the error of all parts that fail. -/
theorem mapM_eq_error {f : α → Except ε β} {e : ε} {l : List α}
    (h : ∀ a ∈ l, f a = .error e ∨ ∃ b, f a = .ok b) (hsome : ∃ a ∈ l, f a = .error e) :
    l.mapM f = .error e := by
  induction l with
  | nil =>
    obtain ⟨_, hmem, _⟩ := hsome
    cases hmem
  | cons a rest ih =>
    rw [List.mapM_cons]
    rcases h a List.mem_cons_self with ha | ⟨b, ha⟩
    · rw [ha]
      rfl
    · have hrest : ∃ x ∈ rest, f x = .error e := by
        obtain ⟨x, hx, hfx⟩ := hsome
        rcases List.mem_cons.1 hx with rfl | hx
        · rw [ha] at hfx
          cases hfx
        · exact ⟨x, hx, hfx⟩
      rw [ha, ih (fun x hx => h x (List.mem_cons_of_mem _ hx)) hrest]
      rfl

/-- Where collecting fails, a part has failed with the same error. -/
theorem exists_of_mapM_eq_error {f : α → Except ε β} {e : ε} {l : List α}
    (h : l.mapM f = .error e) : ∃ a ∈ l, f a = .error e := by
  induction l with
  | nil => cases h
  | cons a rest ih =>
    rw [List.mapM_cons] at h
    cases ha : f a with
    | error first =>
      rw [ha] at h
      obtain rfl := Except.error.inj h
      exact ⟨a, List.mem_cons_self, ha⟩
    | ok b =>
      cases hrest : rest.mapM f with
      | error later =>
        rw [ha, hrest] at h
        obtain rfl := Except.error.inj h
        obtain ⟨x, hx, hfx⟩ := ih hrest
        exact ⟨x, List.mem_cons_of_mem _ hx, hfx⟩
      | ok others =>
        rw [ha, hrest] at h
        cases h

/-- What is collected has come of the parts, one by one. -/
theorem forall₂_of_mapM_eq_ok {f : α → Except ε β} {l : List α} {answers : List β}
    (h : l.mapM f = .ok answers) : List.Forall₂ (fun a b => f a = .ok b) l answers := by
  induction l generalizing answers with
  | nil =>
    obtain rfl := Except.ok.inj h
    exact .nil
  | cons a rest ih =>
    rw [List.mapM_cons] at h
    obtain ⟨b, hb, h⟩ := exists_of_bind_eq_ok h
    obtain ⟨others, hothers, h⟩ := exists_of_bind_eq_ok h
    obtain rfl := Except.ok.inj h
    exact .cons hb (ih hothers)

/-- Collecting gives an answer exactly if every part does, and the list of those. -/
theorem mapM_eq_some_iff {f : α → Option β} {l : List α} {answers : List β} :
    l.mapM f = some answers ↔ List.Forall₂ (fun a b => f a = some b) l answers := by
  induction l generalizing answers with
  | nil => cases answers <;> simp
  | cons a rest ih =>
    rw [List.mapM_cons]
    cases hfirst : f a with
    | none => cases answers <;> simp [hfirst]
    | some b =>
      cases hrest : rest.mapM f with
      | none =>
        rw [hrest] at ih
        cases answers <;> simp [hfirst, ← ih]
      | some others =>
        rw [hrest] at ih
        cases answers <;> simp [hfirst, ← ih]

theorem exists_of_mapM_eq_some {f : α → Option β} {l : List α} {answers : List β}
    (h : l.mapM f = some answers) {a : α} (ha : a ∈ l) : ∃ b, f a = some b := by
  have hall := mapM_eq_some_iff.1 h
  clear h
  induction hall with
  | nil => cases ha
  | cons hfirst _ ih =>
    rcases List.mem_cons.1 ha with rfl | ha
    · exact ⟨_, hfirst⟩
    · exact ih ha

theorem exists_of_mem_mapM {f : α → Option β} {l : List α} {answers : List β}
    (h : l.mapM f = some answers) {b : β} (hb : b ∈ answers) : ∃ a ∈ l, f a = some b := by
  have hall := mapM_eq_some_iff.1 h
  clear h
  induction hall with
  | nil => cases hb
  | cons hfirst _ ih =>
    rcases List.mem_cons.1 hb with rfl | hb
    · exact ⟨_, List.mem_cons_self, hfirst⟩
    · obtain ⟨a, ha, hab⟩ := ih hb
      exact ⟨a, List.mem_cons_of_mem _ ha, hab⟩

/-- Where every part has an answer, collecting gives these. -/
theorem mapM_eq_some {f : α → Option β} {g : α → β} {l : List α}
    (h : ∀ a ∈ l, f a = some (g a)) : l.mapM f = some (l.map g) := by
  rw [mapM_eq_some_iff, List.forall₂_map_right_iff, List.forall₂_same]
  exact h

/-- Collecting twice is collecting what two steps come to. -/
theorem mapM_bind_mapM {γ : Type} (f : α → Option β) (g : β → Option γ) (l : List α) :
    (l.mapM f).bind (·.mapM g) = l.mapM fun a => (f a).bind g := by
  induction l with
  | nil => rfl
  | cons a rest ih =>
    rw [List.mapM_cons, List.mapM_cons, ← ih]
    cases f a with
    | none => rfl
    | some b =>
      cases rest.mapM f with
      | none => cases hg : g b <;> simp [hg]
      | some others => simp

/-- What holds at first, and is kept by every one of these steps that succeeds, holds after them. -/
theorem foldlM_induct_of_mem {step : β → α → Option β} {P : β → Prop} {l : List α} {b c : β}
    (hstart : P b) (hstep : ∀ {a : α} {b c : β}, a ∈ l → P b → step b a = some c → P c)
    (h : l.foldlM step b = some c) : P c := by
  induction l generalizing b with
  | nil =>
    obtain rfl := Option.some.inj h
    exact hstart
  | cons a rest ih =>
    rw [List.foldlM_cons] at h
    obtain ⟨between, hfirst, hrest⟩ := Option.bind_eq_some_iff.1 h
    exact ih (hstep List.mem_cons_self hstart hfirst)
      (fun ha => hstep (List.mem_cons_of_mem _ ha)) hrest

/-- What holds at first, and is kept by every step that succeeds, holds after several of them. -/
theorem foldlM_induct {step : β → α → Option β} {P : β → Prop} {l : List α} {b c : β} (hstart : P b)
    (hstep : ∀ {a : α} {b c : β}, P b → step b a = some c → P c)
    (h : l.foldlM step b = some c) : P c :=
  foldlM_induct_of_mem hstart (fun _ => hstep) h

end Collective
