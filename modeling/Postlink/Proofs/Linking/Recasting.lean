import Postlink.Linking
import Postlink.Proofs.Lookup

/-!
# Calls that linking puts behind a cast

A definition that takes the place of a declaration of another signature puts the direct calls that
expect another signature than its own behind a cast, in every function that is there at that moment.
Which definitions do so depends on the destination as it was (`Func.recasts`), and one cast is all
that a call ever gets. So a function of the destination is recast by the whole source, and a
function of the source by itself and by what comes after it (`Func.recast`, `Func.landed`).
-/

namespace Postlink

namespace Call

/-- The call through a cast to the signature that it expects, if it names a function. -/
def viaCast (c : Call) : Call :=
  match c.callee with
  | .func name => { c with callee := .cast (.func name) (.ptr c.sig.toTy) }
  | _ => c

/-- A call is direct if its callee is a function without casts. -/
theorem direct?_eq_some_iff {c : Call} {name : String} :
    c.direct? = some name ↔ c.callee = .func name := by
  unfold direct?
  split
  · rename_i n hn
    simp [hn]
  · rename_i hne
    simpa using hne name

/-- A call through a cast is not direct. -/
@[simp] theorem direct?_viaCast (c : Call) : c.viaCast.direct? = none := by
  unfold viaCast
  split
  · rfl
  · rename_i hne
    rw [Option.eq_none_iff_forall_ne_some]
    intro name hname
    exact hne name (direct?_eq_some_iff.1 hname)

end Call

/-- A call is recast if it names the function and expects another signature. -/
theorem Module.castCall_eq (name : String) (sig : Signature) (c : Call) :
    castCall name sig c = if c.direct? = some name ∧ c.sig ≠ sig then c.viaCast else c := by
  simp only [castCall, Call.direct?_eq_some_iff]
  split
  · rename_i h
    rw [Call.viaCast, h.1]
  · rfl

namespace Func

/-- Whether a definition takes the place of a declaration of another signature. -/
def recasts (dest : List Func) (f : Func) : Bool :=
  !f.isDeclared && dest.any fun d => d.name = f.name && d.isDeclared && d.sig ≠ f.sig

/-- Whether a call expects another signature of a function than the definition that took the place
of its declaration has. -/
def misfit (dest : List Func) (c : Call) (f : Func) : Bool :=
  f.recasts dest && c.direct? = some f.name && c.sig ≠ f.sig

end Func

/-- A call after some functions have been moved into a destination. -/
def Call.recast (dest fs : List Func) (c : Call) : Call :=
  if fs.any (Func.misfit dest c) then c.viaCast else c

namespace Call

variable {dest fs : List Func} {c : Call}

@[simp] theorem recast_nil (dest : List Func) (c : Call) : c.recast dest [] = c := rfl

/-- Functions are moved one after the other. -/
theorem recast_append (dest fs gs : List Func) (c : Call) :
    c.recast dest (fs ++ gs) = (c.recast dest fs).recast dest gs := by
  have hcast : gs.any (Func.misfit dest c.viaCast) = false := by
    rw [List.any_eq_false]
    intro f _
    simp [Func.misfit]
  by_cases h : fs.any (Func.misfit dest c) = true
  · simp only [recast, List.any_append, h, Bool.true_or, if_true, hcast,
      Bool.false_eq_true, if_false]
  · simp only [recast, List.any_append, h, Bool.false_or, Bool.false_eq_true, if_false]

/-- A call stays as it is or goes through one cast, and only if it does not fit a definition that
was moved. -/
theorem recast_cases (dest fs : List Func) (c : Call) :
    c.recast dest fs = c ∨
      (∃ f ∈ fs, Func.misfit dest c f = true) ∧ c.recast dest fs = c.viaCast := by
  unfold recast
  split
  · rename_i h
    exact Or.inr ⟨List.any_eq_true.1 h, rfl⟩
  · exact Or.inl rfl

/-- A call that is direct after moving functions was not changed, and fits them all. -/
theorem recast_of_direct? {name : String} (h : (c.recast dest fs).direct? = some name) :
    c.recast dest fs = c ∧ ∀ f ∈ fs, f.recasts dest = true → f.name = name → c.sig = f.sig := by
  unfold recast at h ⊢
  split at h
  · rw [direct?_viaCast] at h
    cases h
  · rename_i hany
    rw [if_neg hany]
    refine ⟨rfl, ?_⟩
    intro f hf hrecasts hname
    by_contra hsig
    refine hany (List.any_eq_true.2 ⟨f, hf, ?_⟩)
    simp [Func.misfit, hrecasts, hname, h, hsig]

end Call

namespace Func

/-- A function after some functions have been moved into a destination. -/
def recast (dest fs : List Func) (f : Func) : Func :=
  f.mapInstrs (Instr.mapCall (Call.recast dest fs))

/-- The functions of a source as they end up in a destination. -/
def landed (dest : List Func) : List Func → List Func
  | [] => []
  | f :: fs => f.recast dest (f :: fs) :: landed dest fs

@[simp] theorem name_recast (dest fs : List Func) (f : Func) : (f.recast dest fs).name = f.name :=
  rfl

@[simp] theorem sig_recast (dest fs : List Func) (f : Func) : (f.recast dest fs).sig = f.sig := rfl

@[simp] theorem isDeclared_recast (dest fs : List Func) (f : Func) :
    (f.recast dest fs).isDeclared = f.isDeclared :=
  f.isDeclared_mapInstrs _

@[simp] theorem recast_nil (dest : List Func) (f : Func) : f.recast dest [] = f := by
  have hself : Instr.mapCall (Call.recast dest []) = fun i => i := by
    funext i
    cases i with
    | mk id name ty kind loc => cases kind <;> rfl
  rw [recast, hself, mapInstrs_self]

/-- Functions that are moved one after the other recast one after the other. -/
theorem recast_append (dest fs gs : List Func) (f : Func) :
    f.recast dest (fs ++ gs) = (f.recast dest fs).recast dest gs := by
  have hcomp : Instr.mapCall (Call.recast dest (fs ++ gs)) =
      Instr.mapCall (Call.recast dest gs) ∘ Instr.mapCall (Call.recast dest fs) := by
    funext i
    rw [Function.comp_apply, Instr.mapCall_mapCall]
    congr 1
    funext c
    exact c.recast_append dest fs gs
  rw [recast, hcomp, ← mapInstrs_mapInstrs]
  rfl

/-- A body that is not there is not recast. -/
theorem recast_of_isDeclared {f : Func} (h : f.isDeclared = true) (dest fs : List Func) :
    f.recast dest fs = f := by
  have hbody : f.body.mapBlocks (Blocks.mapInstrs (Instr.mapCall (Call.recast dest fs))) =
      f.body := by
    unfold isDeclared at h
    cases hb : f.body with
    | declared => rfl
    | loaded bs => rw [hb] at h; cases h
    | stored s => rfl
  rw [recast, mapInstrs, hbody]

theorem recasts_of_isDeclared {f : Func} (h : f.isDeclared = true) (dest : List Func) :
    f.recasts dest = false := by
  simp [recasts, h]

/-- A function with a new name recasts nothing. -/
theorem recasts_of_forall_ne {dest : List Func} {f : Func} (h : ∀ d ∈ dest, d.name ≠ f.name) :
    f.recasts dest = false := by
  have hany : (dest.any fun d => d.name = f.name && d.isDeclared && d.sig ≠ f.sig) = false := by
    rw [List.any_eq_false]
    intro d hd
    simp [h d hd]
  rw [recasts, hany, Bool.and_false]

/-- A definition in the place of a declaration recasts calls exactly if their signatures differ. -/
theorem recasts_iff {dest : List Func} (hdest : (dest.map name).Nodup) {d f : Func} (hd : d ∈ dest)
    (hname : d.name = f.name) (hdecl : d.isDeclared = true) (hdef : f.isDeclared = false) :
    f.recasts dest = true ↔ d.sig ≠ f.sig := by
  rw [recasts, hdef, Bool.not_false, Bool.true_and, List.any_eq_true]
  constructor
  · rintro ⟨e, he, h⟩
    simp only [Bool.and_eq_true, decide_eq_true_iff] at h
    rw [List.inj_on_of_nodup_map hdest hd he (hname.trans h.1.1.symm)]
    exact h.2
  · intro h
    refine ⟨d, hd, ?_⟩
    simp [hname, hdecl, h]

/-- A definition that takes no declaration's place, or one of the same signature, recasts
nothing. -/
theorem recast_singleton_of_not_recasts {dest : List Func} {f : Func} (h : f.recasts dest = false)
    (g : Func) : g.recast dest [f] = g := by
  have hself : Call.recast dest [f] = Call.recast dest [] := by
    funext c
    simp [Call.recast, misfit, h]
  rw [recast, hself]
  exact g.recast_nil dest

/-- Moving one function that recasts changes the calls of it. -/
theorem recast_singleton_of_recasts {dest : List Func} {f : Func} (h : f.recasts dest = true)
    (g : Func) :
    g.recast dest [f] = g.mapInstrs (Instr.mapCall (Module.castCall f.name f.sig)) := by
  have hstep : Call.recast dest [f] = Module.castCall f.name f.sig := by
    funext c
    simp [Call.recast, misfit, h, Module.castCall_eq]
  rw [recast, hstep]

/-- One more function recasts those before it and itself. -/
theorem landed_concat (dest fs : List Func) (f : Func) :
    landed dest (fs ++ [f]) = (landed dest fs ++ [f]).map (recast dest [f]) := by
  induction fs with
  | nil => rfl
  | cons g fs ih =>
      rw [List.cons_append, landed, ih, landed, List.cons_append, List.map_cons, ← List.cons_append,
        recast_append]

/-- What casts around callees do not change is the same for the functions as they land. -/
theorem map_landed {β : Type} {g : Func → β} {dest : List Func}
    (h : ∀ fs f, g (f.recast dest fs) = g f) (fs : List Func) :
    (landed dest fs).map g = fs.map g := by
  induction fs with
  | nil => rfl
  | cons f fs ih => rw [landed, List.map_cons, List.map_cons, h, ih]

theorem map_name_landed (dest fs : List Func) : (landed dest fs).map name = fs.map name :=
  map_landed (fun _ _ => rfl) fs

/-- A function of the source is recast by itself and by what comes after it. -/
theorem forall₂_landed (dest fs : List Func) :
    List.Forall₂ (fun f g => ∃ gs, gs ⊆ fs ∧ g = f.recast dest gs) fs (landed dest fs) := by
  induction fs with
  | nil => exact .nil
  | cons f fs ih =>
      refine .cons ⟨f :: fs, List.Subset.refl _, rfl⟩ (ih.imp ?_)
      rintro g g' ⟨gs, hgs, rfl⟩
      exact ⟨gs, List.subset_cons_of_subset _ hgs, rfl⟩

/-- A function that has landed is one of the source, recast for some others. -/
theorem exists_of_mem_landed {dest fs : List Func} {g : Func} (h : g ∈ landed dest fs) :
    ∃ f ∈ fs, ∃ gs, gs ⊆ fs ∧ g = f.recast dest gs := by
  obtain ⟨k, hk, rfl⟩ := List.getElem_of_mem h
  have hlength := (forall₂_landed dest fs).length_eq
  exact ⟨fs[k], List.getElem_mem _, (forall₂_landed dest fs).get (by omega) hk⟩

/-- Every function of the source lands, recast for some others. -/
theorem exists_recast_mem_landed (dest : List Func) {fs : List Func} {f : Func} (h : f ∈ fs) :
    ∃ gs, gs ⊆ fs ∧ f.recast dest gs ∈ landed dest fs := by
  obtain ⟨k, hk, rfl⟩ := List.getElem_of_mem h
  have hlength := (forall₂_landed dest fs).length_eq
  obtain ⟨gs, hgs, heq⟩ := (forall₂_landed dest fs).get hk (by omega)
  refine ⟨gs, hgs, ?_⟩
  rw [List.get_eq_getElem, List.get_eq_getElem] at heq
  rw [← heq]
  exact List.getElem_mem _

end Func

end Postlink
