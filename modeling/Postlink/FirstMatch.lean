/-!
# Changing the first element with a property

Symbols are changed by name, and a name means the first symbol that carries it. So a change reaches
the element that a search finds and no other: the list is what stands before that element, the
element, and what stands after it (`exists_modifyFirst`). What a change does to counts, searches and
views of the list is read off this.
-/

namespace Postlink

/-- Change the first element with a property. -/
def modifyFirst {α : Type} (p : α → Bool) (f : α → α) : List α → List α
  | [] => []
  | a :: as => if p a then f a :: as else a :: modifyFirst p f as

variable {α β : Type} {p q : α → Bool} {change : α → α} {a b : α} {as : List α}

/-- Elements without the property are passed over. -/
theorem modifyFirst_append (h : ∀ b ∈ as, p b = false) (bs : List α) :
    modifyFirst p change (as ++ bs) = as ++ modifyFirst p change bs := by
  induction as with
  | nil => rfl
  | cons c cs ih =>
      rw [List.forall_mem_cons] at h
      rw [List.cons_append, modifyFirst, h.1, ih h.2]
      rfl

/-- The element that a search finds is changed where it stands. -/
theorem exists_modifyFirst (h : as.find? p = some a) : ∃ before after,
    as = before ++ a :: after ∧ p a = true ∧ (∀ b ∈ before, p b = false) ∧
      ∀ change, modifyFirst p change as = before ++ change a :: after := by
  obtain ⟨ha, before, after, rfl, hbefore⟩ := List.find?_eq_some_iff_append.1 h
  have hbefore : ∀ b ∈ before, p b = false := fun b hb => by simpa using hbefore b hb
  refine ⟨before, after, rfl, ha, hbefore, fun change => ?_⟩
  rw [modifyFirst_append hbefore, modifyFirst, if_pos ha]

/-- Replacing an element by one that agrees with it on a property keeps how many elements have
that property. -/
theorem countP_modifyFirst_const (hp : as.find? p = some a) (h : q b = q a) :
    (modifyFirst p (fun _ => b) as).countP q = as.countP q := by
  obtain ⟨before, after, hsplit, _, _, hchange⟩ := exists_modifyFirst hp
  rw [hchange, hsplit]
  simp only [List.countP_append, List.countP_cons, h]

/-- Taking a property from the element that is changed leaves one fewer element with it. -/
theorem countP_modifyFirst_lt (hp : as.find? p = some a) (ha : q a = true)
    (hf : q (change a) = false) : (modifyFirst p change as).countP q < as.countP q := by
  obtain ⟨before, after, hsplit, _, _, hchange⟩ := exists_modifyFirst hp
  rw [hchange, hsplit]
  simp only [List.countP_append, List.countP_cons, ha, hf]
  simp

/-- Replacing an element without a property by one with it leaves one more element with it. -/
theorem countP_modifyFirst_succ (hp : as.find? p = some a) (ha : q a = false) (hb : q b = true) :
    (modifyFirst p (fun _ => b) as).countP q = as.countP q + 1 := by
  obtain ⟨before, after, hsplit, _, _, hchange⟩ := exists_modifyFirst hp
  rw [hchange, hsplit]
  simp only [List.countP_append, List.countP_cons, ha, hb]
  simp [Nat.add_assoc]

/-- What has taken an element's place is found in its place. -/
theorem find?_modifyFirst_const (hp : as.find? p = some a) (hb : p b = true) :
    (modifyFirst p (fun _ => b) as).find? p = some b := by
  obtain ⟨before, after, _, _, hbefore, hchange⟩ := exists_modifyFirst hp
  have hnone : before.find? p = none :=
    List.find?_eq_none.2 fun c hc => by simp [hbefore c hc]
  rw [hchange, List.find?_append, hnone, List.find?_cons, hb]
  rfl

/-- Replacing an element by one that looks the same keeps the looks of the list. -/
theorem map_modifyFirst_const {look : α → β} (hp : as.find? p = some a) (h : look b = look a) :
    (modifyFirst p (fun _ => b) as).map look = as.map look := by
  obtain ⟨before, after, hsplit, _, _, hchange⟩ := exists_modifyFirst hp
  rw [hchange, hsplit]
  simp only [List.map_append, List.map_cons, h]

/-- Elements other than the one that is changed stay. -/
theorem mem_modifyFirst_of_ne (hb : as.find? p = some b) (ha : a ∈ as) (hne : a ≠ b) :
    a ∈ modifyFirst p change as := by
  obtain ⟨before, after, hsplit, _, _, hchange⟩ := exists_modifyFirst hb
  rw [hsplit] at ha
  rw [hchange]
  simp only [List.mem_append, List.mem_cons] at ha ⊢
  exact ha.imp_right fun ha => Or.inr (ha.resolve_left hne)

/-- What is in a list after a change at one place was there before or is new. -/
theorem mem_modifyFirst_const (h : a ∈ modifyFirst p (fun _ => b) as) : a = b ∨ a ∈ as := by
  induction as with
  | nil => cases h
  | cons c cs ih =>
      rw [modifyFirst] at h
      split at h
      · exact (List.mem_cons.1 h).imp_right (List.mem_cons_of_mem _)
      · rcases List.mem_cons.1 h with rfl | h
        · exact Or.inr (List.mem_cons_self ..)
        · exact (ih h).imp_right (List.mem_cons_of_mem _)

/-- A change that does not show leaves the looks of a list alone. -/
theorem map_modifyFirst {look : α → β} (h : ∀ a, look (change a) = look a) (as : List α) :
    (modifyFirst p change as).map look = as.map look := by
  induction as with
  | nil => rfl
  | cons a as ih =>
      rw [modifyFirst]
      split
      · rw [List.map_cons, h, List.map_cons]
      · rw [List.map_cons, ih, List.map_cons]

/-- Of two replacements in one place the later one counts. -/
theorem modifyFirst_modifyFirst_const {c : α} (hb : p b = true) (as : List α) :
    modifyFirst p (fun _ => c) (modifyFirst p (fun _ => b) as) = modifyFirst p (fun _ => c) as := by
  induction as with
  | nil => rfl
  | cons a as ih =>
      by_cases ha : p a = true
      · simp [modifyFirst, ha, hb]
      · simp [modifyFirst, ha, ih]

section Keys

variable {κ : Type} [DecidableEq κ] {key : α → κ} {name : κ}

/-- A change at a key that does not occur changes nothing. -/
theorem map_ite_of_forall_ne (h : ∀ a ∈ as, key a ≠ name) :
    (as.map fun a => if key a = name then change a else a) = as := by
  have hself : ∀ a ∈ as, (if key a = name then change a else a) = a :=
    fun a ha => if_neg (h a ha)
  rw [List.map_congr_left hself, List.map_id']

/-- Where keys are distinct, changing the first element with a key changes every one with it. -/
theorem modifyFirst_eq_map (h : (as.map key).Nodup) :
    modifyFirst (fun a => key a = name) change as =
      as.map fun a => if key a = name then change a else a := by
  induction as with
  | nil => rfl
  | cons a as ih =>
      rw [List.map_cons, List.nodup_cons] at h
      by_cases ha : key a = name
      · have hne : ∀ b ∈ as, key b ≠ name := fun b hb he =>
          h.1 ((ha.trans he.symm) ▸ List.mem_map_of_mem hb)
        simp [modifyFirst, ha, map_ite_of_forall_ne hne]
      · simp [modifyFirst, ha, ih h.2]

/-- Replacing the first element with a key, seen on the elements with another key or with this
one. -/
theorem filter_modifyFirst_key (ha : as.find? (fun c => key c = name) = some a)
    (hb : key b = name) (k : κ) :
    (modifyFirst (fun c => key c = name) (fun _ => b) as).filter (fun c => key c = k) =
      if k = name then b :: (as.filter fun c => key c = k).tail
      else as.filter fun c => key c = k := by
  obtain ⟨before, after, hsplit, hkey, hbefore, hchange⟩ := exists_modifyFirst ha
  have hkey : key a = name := by simpa using hkey
  rw [hchange, hsplit]
  by_cases hk : k = name
  · have hnone : (before.filter fun c => key c = k) = [] :=
      List.filter_eq_nil_iff.2 fun c hc => by simpa [hk] using hbefore c hc
    rw [if_pos hk, List.filter_append, List.filter_append, hnone,
      List.filter_cons_of_pos (by simpa [hk] using hb),
      List.filter_cons_of_pos (by simpa [hk] using hkey)]
    rfl
  · have hne : ∀ c, key c = name → key c ≠ k := fun c hc hck => hk (hck.symm.trans hc)
    rw [if_neg hk, List.filter_append, List.filter_append,
      List.filter_cons_of_neg (by simpa using hne b hb),
      List.filter_cons_of_neg (by simpa using hne a hkey)]

end Keys

end Postlink
