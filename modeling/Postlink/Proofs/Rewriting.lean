import Postlink.Proofs.Lookup

/-!
# Instructions replaced one after the other

A pass replaces instructions of a function by putting new ones in front of them and handing their
uses over; the old instructions stay until all is done. What was done so far is a list of rewrites,
and the body at that point is one expansion of the body at the start (`Func.rewriteBy`). One more
rewrite is an insertion and a redirection of uses (`Func.Planned.concat_eq`).
-/

namespace Postlink

/-- An instruction that is replaced. -/
structure Rewrite where
  /-- The identifier of the old instruction. -/
  old : Nat
  /-- The identifier of the first new instruction. -/
  first : Nat
  /-- The new instructions, as they are inserted. -/
  instrs : List Instr
  /-- They are numbered one after the other. -/
  ids : instrs.map Instr.id = List.range' first instrs.length

namespace Rewrite

/-- The identifier of the last new instruction, which takes over the uses. -/
def result (r : Rewrite) : Nat := r.first + (r.instrs.length - 1)

/-- How many fresh identifiers some rewrites take. -/
def width : List Rewrite → Nat
  | [] => 0
  | r :: rs => r.instrs.length + width rs

/-- Where the uses of a result end up. -/
def redirect (rs : List Rewrite) (k : Nat) : Nat :=
  ((rs.find? fun r => r.old = k).map result).getD k

/-- What stands in front of the instruction with an identifier. Only the rewrites from their own
onwards reach the new instructions. -/
def inserted : List Rewrite → Nat → List Instr
  | [], _ => []
  | r :: rs, k =>
      if r.old = k then r.instrs.map (Instr.renumber (redirect (r :: rs))) else inserted rs k

/-- What becomes of an instruction while the old ones are still there. -/
def image (rs : List Rewrite) (i : Instr) : List Instr :=
  inserted rs i.id ++ [i.renumber (redirect rs)]

/-- Rewrites one after the other take the identifiers of both parts. -/
theorem width_append (rs ss : List Rewrite) : width (rs ++ ss) = width rs + width ss := by
  induction rs with
  | nil => simp [width]
  | cons r rs ih => simp [width, ih, Nat.add_assoc]

/-- Only a rewrite redirects a result. -/
theorem redirect_eq_self {rs : List Rewrite} {k : Nat} (h : ∀ r ∈ rs, r.old ≠ k) :
    redirect rs k = k := by
  have hnone : (rs.find? fun r => r.old = k) = none := by simpa [List.find?_eq_none] using h
  rw [redirect, hnone]
  rfl

/-- Uses of a replaced result go to the rewrite's last instruction. -/
theorem redirect_of_mem {rs : List Rewrite} (h : (rs.map old).Nodup) {r : Rewrite} (hr : r ∈ rs) :
    redirect rs r.old = r.result := by
  rw [redirect, (find?_eq_some_iff_of_nodup h).2 ⟨hr, rfl⟩]
  rfl

/-- One more rewrite redirects what the others have left. -/
theorem redirect_concat {rs : List Rewrite} {r : Rewrite} (h : ∀ s ∈ rs, s.result ≠ r.old) :
    redirect (rs ++ [r]) = (fun k => if k = r.old then r.result else k) ∘ redirect rs := by
  funext k
  rcases Option.eq_none_or_eq_some (rs.find? fun s => s.old = k) with hf | ⟨s, hf⟩
  · by_cases hk : r.old = k
    · simp [redirect, hf, hk]
    · have hk' : k ≠ r.old := fun he => hk he.symm
      simp [redirect, hf, hk, hk']
  · have hs := h s (List.mem_of_find?_eq_some hf)
    simp [redirect, hf, hs]

/-- Nothing is inserted in front of an instruction that no rewrite replaces. -/
theorem inserted_eq_nil {rs : List Rewrite} {k : Nat} (h : ∀ r ∈ rs, r.old ≠ k) :
    inserted rs k = [] := by
  induction rs with
  | nil => rfl
  | cons r rs ih =>
      rw [inserted, if_neg (h r (List.mem_cons_self ..))]
      exact ih fun s hs => h s (List.mem_cons_of_mem _ hs)

/-- Rewrites of other instructions do not count. -/
theorem inserted_append_left {rs : List Rewrite} {k : Nat} (h : ∀ r ∈ rs, r.old ≠ k)
    (ss : List Rewrite) : inserted (rs ++ ss) k = inserted ss k := by
  induction rs with
  | nil => rfl
  | cons r rs ih =>
      rw [List.cons_append, inserted, if_neg (h r (List.mem_cons_self ..))]
      exact ih fun s hs => h s (List.mem_cons_of_mem _ hs)

/-- One more rewrite of an instruction that was not rewritten yet redirects the new instructions of
the others and adds its own. -/
theorem inserted_concat {rs : List Rewrite} {r : Rewrite} (hresult : ∀ s ∈ rs, s.result ≠ r.old)
    (hold : ∀ s ∈ rs, s.old ≠ r.old) (k : Nat) :
    inserted (rs ++ [r]) k =
      (inserted rs k ++ if k = r.old then r.instrs else []).map
        (Instr.renumber fun j => if j = r.old then r.result else j) := by
  induction rs with
  | nil =>
      have hnone : ∀ s ∈ ([] : List Rewrite), s.result ≠ r.old := by simp
      have hnil := redirect_concat hnone
      by_cases hk : r.old = k
      · rw [List.nil_append] at hnil
        simp only [List.nil_append, inserted, if_pos hk, if_pos hk.symm, hnil]
        rfl
      · have hk' : k ≠ r.old := fun he => hk he.symm
        simp [inserted, hk, hk']
  | cons s rs ih =>
      have hs := hold s (List.mem_cons_self ..)
      by_cases hk : s.old = k
      · have hk' : k ≠ r.old := fun he => hs (hk.trans he)
        rw [List.cons_append, inserted, if_pos hk, inserted, if_pos hk, if_neg hk',
          List.append_nil, ← List.cons_append, redirect_concat hresult, List.map_map]
        refine List.map_congr_left fun i _ => ?_
        rw [Function.comp_apply, Instr.renumber_renumber]
      · rw [List.cons_append, inserted, if_neg hk, inserted, if_neg hk]
        exact ih (fun t ht => hresult t (List.mem_cons_of_mem _ ht))
          (fun t ht => hold t (List.mem_cons_of_mem _ ht))

/-- New instructions have identifiers from the first fresh one on. -/
theorem first_le_id (r : Rewrite) {x : Instr} (hx : x ∈ r.instrs) : r.first ≤ x.id := by
  have hmem : x.id ∈ List.range' r.first r.instrs.length := by
    rw [← r.ids]
    exact List.mem_map_of_mem hx
  exact (List.mem_range'_1.1 hmem).1

/-- Among the new instructions is the one that takes over the uses. -/
theorem exists_mem_result {r : Rewrite} (h : r.instrs ≠ []) : ∃ x ∈ r.instrs, x.id = r.result := by
  have hmem : r.result ∈ List.range' r.first r.instrs.length := by
    have hpos := List.length_pos_iff.2 h
    rw [List.mem_range'_1, result]
    omega
  rw [← r.ids] at hmem
  exact List.mem_map.1 hmem

/-- New instructions carry fresh identifiers. -/
theorem le_id_of_mem_inserted {rs : List Rewrite} {n k : Nat} (h : ∀ r ∈ rs, n ≤ r.first)
    {x : Instr} (hx : x ∈ inserted rs k) : n ≤ x.id := by
  induction rs with
  | nil => cases hx
  | cons r rs ih =>
      rw [inserted] at hx
      split at hx
      · obtain ⟨y, hy, rfl⟩ := List.mem_map.1 hx
        have hge := r.first_le_id hy
        exact Nat.le_trans (h r (List.mem_cons_self ..)) hge
      · exact ih (fun s hs => h s (List.mem_cons_of_mem _ hs)) hx

end Rewrite

namespace Func

/-- The function with some rewrites carried out and the old calls still there. -/
def rewriteBy (rs : List Rewrite) (f : Func) : Func :=
  (f.advance (Rewrite.width rs)).expand (Rewrite.image rs)

/-- Rewrites that can be carried out one after the other: each replaces an instruction that no
earlier one replaces, and goes on with the fresh identifiers where the earlier ones stopped. -/
inductive Planned (f : Func) : List Rewrite → Prop where
  /-- Nothing is rewritten. -/
  | nil : Planned f []
  /-- One more instruction is rewritten. -/
  | concat {rs : List Rewrite} {r : Rewrite} (hrs : Planned f rs)
      (hthere : ∃ i ∈ f.instrs, i.id = r.old) (hnew : ∀ s ∈ rs, s.old ≠ r.old)
      (hne : r.instrs ≠ []) (hfirst : r.first = f.upcomingId + Rewrite.width rs) :
      Planned f (rs ++ [r])

@[simp] theorem rewriteBy_nil (f : Func) : f.rewriteBy [] = f := by
  have himage : Rewrite.image [] = fun i => [i] := by
    funext i
    exact congrArg (fun j => [j]) i.renumber_self
  rw [rewriteBy, himage, expand_singleton]
  rfl

@[simp] theorem name_rewriteBy (rs : List Rewrite) (f : Func) : (f.rewriteBy rs).name = f.name := by
  rw [rewriteBy, name_expand, name_advance]

/-- The instructions of a rewritten function are images of those that it had. -/
theorem instrs_rewriteBy (rs : List Rewrite) (f : Func) :
    (f.rewriteBy rs).instrs = f.instrs.flatMap (Rewrite.image rs) := by
  rw [rewriteBy, instrs_expand, instrs_advance]

namespace Planned

variable {f : Func} {rs : List Rewrite}

/-- What is rewritten is there. -/
theorem exists_old (h : f.Planned rs) {r : Rewrite} (hr : r ∈ rs) :
    ∃ i ∈ f.instrs, i.id = r.old := by
  induction h with
  | nil => cases hr
  | concat hrs hthere hnew hne hfirst ih =>
      rcases List.mem_append.1 hr with hr | hr
      · exact ih hr
      · rw [List.mem_singleton.1 hr]
        exact hthere

/-- Rewritten instructions are old and new ones are fresh. -/
theorem bounds (h : f.Planned rs) (hf : f.Numbered) :
    ∀ r ∈ rs, r.old < f.upcomingId ∧ f.upcomingId ≤ r.first := by
  induction h with
  | nil => intro r hr; cases hr
  | concat hrs hthere hnew hne hfirst ih =>
      intro r hr
      rcases List.mem_append.1 hr with hr | hr
      · exact ih r hr
      · rw [List.mem_singleton.1 hr]
        obtain ⟨i, hi, hid⟩ := hthere
        refine ⟨hid ▸ hf.below i hi, ?_⟩
        rw [hfirst]
        exact Nat.le_add_right _ _

/-- The result of a rewrite is fresh. -/
theorem upcomingId_le_result (h : f.Planned rs) (hf : f.Numbered) {r : Rewrite} (hr : r ∈ rs) :
    f.upcomingId ≤ r.result :=
  Nat.le_trans (h.bounds hf r hr).2 (Nat.le_add_right _ _)

/-- No instruction is rewritten twice. -/
theorem nodup (h : f.Planned rs) : (rs.map Rewrite.old).Nodup := by
  induction h with
  | nil => exact List.nodup_nil
  | concat hrs hthere hnew hne hfirst ih =>
      rw [List.map_append, List.nodup_append]
      refine ⟨ih, List.nodup_singleton _, ?_⟩
      intro a ha b hb
      obtain ⟨s, hs, rfl⟩ := List.mem_map.1 ha
      rw [List.map_singleton, List.mem_singleton] at hb
      rw [hb]
      exact hnew s hs

/-- Every rewrite takes a fresh identifier. -/
theorem width_ne_zero (h : f.Planned rs) (hne : rs ≠ []) : Rewrite.width rs ≠ 0 := by
  cases h with
  | nil => exact absurd rfl hne
  | concat hrs hthere hnew hinstrs hfirst =>
      have := List.length_pos_iff.2 hinstrs
      rw [Rewrite.width_append]
      simp only [Rewrite.width]
      omega

/-- The counter stands after the identifiers that the rewrites have taken. -/
theorem upcomingId_rewriteBy (h : f.Planned rs) :
    (f.rewriteBy rs).upcomingId = f.upcomingId + Rewrite.width rs := by
  by_cases hrs : rs = []
  · subst hrs
    rw [rewriteBy_nil]
    rfl
  · exact upcomingId_expand_advance (h.width_ne_zero hrs) _ f

/-- Fresh identifiers can be taken before or after rewriting. -/
theorem advance_rewriteBy (h : f.Planned rs) (n : Nat) :
    (f.rewriteBy rs).advance n = (f.advance (Rewrite.width rs + n)).expand (Rewrite.image rs) := by
  by_cases hrs : rs = []
  · subst hrs
    have hself := (f.advance n).rewriteBy_nil
    rw [rewriteBy_nil]
    simpa [rewriteBy, Rewrite.width, Func.advance] using hself.symm
  · exact advance_expand_advance (h.width_ne_zero hrs) n _ f

/-- Carrying out one more rewrite on an image gives the image under one rewrite more. -/
theorem image_concat (h : f.Planned rs) (hf : f.Numbered) {r : Rewrite}
    (hthere : ∃ i ∈ f.instrs, i.id = r.old) (hnew : ∀ s ∈ rs, s.old ≠ r.old) (i : Instr) :
    (Rewrite.image rs i).flatMap (fun x =>
      ((if x.id = r.old then r.instrs else []) ++ [x]).map
        (Instr.renumber fun j => if j = r.old then r.result else j)) =
      Rewrite.image (rs ++ [r]) i := by
  have hold : r.old < f.upcomingId := by
    obtain ⟨j, hj, hid⟩ := hthere
    exact hid ▸ hf.below j hj
  have hresult : ∀ s ∈ rs, s.result ≠ r.old := fun s hs =>
    Nat.ne_of_gt (Nat.lt_of_lt_of_le hold (h.upcomingId_le_result hf hs))
  -- New instructions of earlier rewrites are fresh, so nothing is inserted in front of them.
  have hins : ∀ x ∈ Rewrite.inserted rs i.id, x.id ≠ r.old := fun x hx =>
    Nat.ne_of_gt (Nat.lt_of_lt_of_le hold
      (Rewrite.le_id_of_mem_inserted (fun s hs => (h.bounds hf s hs).2) hx))
  have hkeep : (Rewrite.inserted rs i.id).flatMap (fun x =>
      ((if x.id = r.old then r.instrs else []) ++ [x]).map
        (Instr.renumber fun j => if j = r.old then r.result else j)) =
      (Rewrite.inserted rs i.id).map (Instr.renumber fun j => if j = r.old
        then r.result else j) := by
    rw [List.map_eq_flatMap]
    refine List.flatMap_congr fun x hx => ?_
    rw [if_neg (hins x hx)]
    rfl
  rw [Rewrite.image, List.flatMap_append, hkeep, Rewrite.image,
    Rewrite.inserted_concat hresult hnew,
    Rewrite.redirect_concat hresult, ← Instr.renumber_renumber, List.flatMap_singleton,
    List.map_append, List.map_append, List.map_singleton, List.append_assoc]
  rfl

/-- Inserting the instructions of a rewrite and handing over the uses carries it out. -/
theorem concat_eq (h : f.Planned rs) (hf : f.Numbered) {r : Rewrite}
    (hthere : ∃ i ∈ f.instrs, i.id = r.old) (hnew : ∀ s ∈ rs, s.old ≠ r.old) :
    (((f.rewriteBy rs).advance r.instrs.length).expand fun x =>
      (if x.id = r.old then r.instrs else []) ++ [x]).replaceUses r.old (.inst r.result) =
      f.rewriteBy (rs ++ [r]) := by
  rw [replaceUses_inst, h.advance_rewriteBy, expand_expand, expand_expand, rewriteBy,
    Rewrite.width_append]
  simp only [Rewrite.width, Nat.add_zero]
  apply expand_congr
  intro i _
  rw [← h.image_concat hf hthere hnew i]
  refine List.flatMap_congr fun x _ => ?_
  rw [← List.map_eq_flatMap]

end Planned

end Func

end Postlink
