import Postlink.Proofs.Linking.Recasting
import Postlink.Proofs.Linking.Renaming

/-!
# Moving functions into a destination

A definition takes the place of a declaration, everything else of the destination stays, and
functions under new names follow in their order (`Func.merged`). With the casts around callees that
come about on the way this gives the functions after a merge exactly (`Func.linked`,
`merge_functions`). Apart from those casts, and from conventions, functions are moved as they are
(`Func.skeleton`).
-/

namespace Postlink

namespace Func

/-- A function without casts around the functions that it calls, and without conventions. -/
def skeleton (f : Func) : Func := f.plain fun c => { c with callee := c.callee.base, conv := .c }

/-- A body names a function, possibly below casts. -/
def Mentions (f : Func) (name : String) : Prop := ∃ o ∈ f.operands, o.func? = some name

@[simp] theorem name_skeleton (f : Func) : f.skeleton.name = f.name := rfl

@[simp] theorem isDeclared_skeleton (f : Func) : f.skeleton.isDeclared = f.isDeclared :=
  f.isDeclared_plain _

end Func

@[simp] theorem Operand.base_base (o : Operand) : o.base.base = o.base := by
  induction o with
  | cast value ty ih => exact ih
  | _ => rfl

theorem Operand.func?_base (o : Operand) : o.base.func? = o.func? := by
  rw [func?, base_base, func?]

theorem Operand.base_renameBy (ρ : String → String) (o : Operand) :
    (o.renameBy ρ).base = o.base.renameBy ρ := by
  induction o with
  | cast value ty ih => exact ih
  | _ => rfl

namespace Func

/-- Looking through casts, a body names the same functions. -/
theorem mentions_skeleton (f : Func) (name : String) : f.skeleton.Mentions name ↔
    f.Mentions name := by
  have hkind : ∀ k : InstrKind,
      (∃ o ∈ (k.mapCall fun c => { c with callee := c.callee.base, conv := .c }).operands,
        o.func? = some name) ↔ ∃ o ∈ k.operands, o.func? = some name := by
    intro k
    cases k with
    | call c => simp [InstrKind.mapCall, InstrKind.operands, Operand.func?_base]
    | _ => rfl
  simp only [Mentions, operands, skeleton, instrs_plain, List.mem_flatMap, List.mem_map]
  constructor
  · rintro ⟨o, ⟨_, ⟨i, hi, rfl⟩, ho⟩, hname⟩
    obtain ⟨o', ho', hname'⟩ := (hkind i.kind).1 ⟨o, ho, hname⟩
    exact ⟨o', ⟨i, hi, ho'⟩, hname'⟩
  · rintro ⟨o, ⟨i, hi, ho⟩, hname⟩
    obtain ⟨o', ho', hname'⟩ := (hkind i.kind).2 ⟨o, ho, hname⟩
    exact ⟨o', ⟨_, ⟨i, hi, rfl⟩, ho'⟩, hname'⟩

/-- Renaming changes the names that a body mentions. -/
theorem mentions_renameBy (ρ : String → String) (f : Func) (name : String) :
    (f.renameBy ρ).Mentions name ↔ ∃ old, f.Mentions old ∧ ρ old = name := by
  have hinstrs : (f.renameBy ρ).instrs = f.instrs.map (Instr.mapOperands (Operand.renameBy ρ)) :=
    f.instrs_mapInstrs _
  simp only [Mentions, operands, hinstrs, List.mem_flatMap, List.mem_map]
  constructor
  · rintro ⟨o, ⟨_, ⟨i, hi, rfl⟩, ho⟩, hname⟩
    rw [Instr.operands_mapOperands, List.mem_map] at ho
    obtain ⟨p, hp, rfl⟩ := ho
    rw [Operand.func?_renameBy, Option.map_eq_some_iff] at hname
    obtain ⟨old, hold, hrenamed⟩ := hname
    exact ⟨old, ⟨p, ⟨i, hi, hp⟩, hold⟩, hrenamed⟩
  · rintro ⟨old, ⟨p, ⟨i, hi, hp⟩, hold⟩, rfl⟩
    refine ⟨p.renameBy ρ, ⟨_, ⟨i, hi, rfl⟩, ?_⟩, ?_⟩
    · rw [Instr.operands_mapOperands]
      exact List.mem_map_of_mem hp
    · rw [Operand.func?_renameBy, hold]
      rfl

/-- Renaming and taking the skeleton may be done in either order. -/
theorem skeleton_renameBy (ρ : String → String) (f : Func) :
    (f.renameBy ρ).skeleton = f.skeleton.renameBy ρ := by
  have hinstr : (Instr.mapCall fun c => { c with callee := c.callee.base, conv := .c }) ∘
      Instr.mapOperands (Operand.renameBy ρ) = Instr.mapOperands (Operand.renameBy ρ) ∘
      Instr.mapCall fun c => { c with callee := c.callee.base, conv := .c } := by
    funext i
    cases i with
    | mk id name ty kind loc =>
        cases kind with
        | call c =>
            simp [Instr.mapCall, Instr.mapOperands, InstrKind.mapCall, InstrKind.mapOperands,
              Operand.base_renameBy]
        | _ => rfl
  have hbody := congrArg (fun g => (f.mapInstrs g).body) hinstr
  simp only [← mapInstrs_mapInstrs] at hbody
  simp only [mapInstrs] at hbody
  simp only [skeleton, plain, renameBy, mapInstrs, hbody]

/-- Casts around callees do not show in a skeleton. -/
theorem skeleton_recast (dest fs : List Func) (f : Func) :
    (f.recast dest fs).skeleton = f.skeleton := by
  have hcall : ∀ c : Call, ({ c.recast dest fs with
      callee := (c.recast dest fs).callee.base, conv := .c } : Call) =
      { c with callee := c.callee.base, conv := .c } := by
    intro c
    rcases c.recast_cases dest fs with h | ⟨_, h⟩
    · rw [h]
    · rw [h, Call.viaCast]
      split
      · rename_i name hname
        simp [hname, Operand.base]
      · rfl
  rw [skeleton, recast, plain_mapCall]
  exact congrArg (fun g => f.plain g) (funext hcall)

/-- The definition that takes the place of a declaration, if there is one. -/
def supersede (src : List Func) (d : Func) : Func :=
  if d.isDeclared then (src.find? fun f => f.name = d.name && !f.isDeclared).getD d else d

/-- The functions of a destination with those of a source moved in. -/
def merged (dest src : List Func) : List Func :=
  dest.map (supersede src) ++ src.filter fun f => !dest.any fun d => d.name = f.name

@[simp] theorem name_supersede (src : List Func) (d : Func) : (supersede src d).name = d.name := by
  unfold supersede
  split
  · cases h : src.find? fun f => f.name = d.name && !f.isDeclared with
    | none => rfl
    | some f =>
        have hfound := List.find?_some h
        rw [Bool.and_eq_true, decide_eq_true_iff] at hfound
        exact hfound.1
  · rfl

/-- What keeps names and bodies apart from declarations can be done before or after a merge. -/
theorem map_merged {look : Func → Func} (hname : ∀ f, (look f).name = f.name)
    (hdecl : ∀ f, (look f).isDeclared = f.isDeclared) (dest src : List Func) :
    (merged dest src).map look = merged (dest.map look) (src.map look) := by
  have hsupersede : ∀ d, look (supersede src d) = supersede (src.map look) (look d) := by
    intro d
    have hsame : (fun f : Func => f.name = (look d).name && !f.isDeclared) ∘ look =
        fun f => f.name = d.name && !f.isDeclared := by
      funext f
      rw [Function.comp_apply, hdecl, hname, hname]
    rw [supersede, supersede, hdecl, List.find?_map, hsame]
    split
    · rcases Option.eq_none_or_eq_some (src.find? fun f => f.name = d.name && !f.isDeclared)
        with h | ⟨f, h⟩ <;> rw [h] <;> rfl
    · rfl
  rw [merged, merged, List.map_append, List.map_map, List.map_map, List.filter_map]
  congr 1
  · exact List.map_congr_left fun d _ => hsupersede d
  · simp only [List.any_map, Function.comp_def, hname]

/-- Skeletons are moved as functions are. -/
theorem map_skeleton_merged (dest src : List Func) :
    (merged dest src).map skeleton = merged (dest.map skeleton) (src.map skeleton) :=
  map_merged name_skeleton isDeclared_skeleton dest src

/-- The names after a merge: those of the destination, and the new ones of the source. -/
theorem map_name_merged (dest src : List Func) :
    (merged dest src).map name = dest.map name ++
      (src.filter fun f => !dest.any fun d => d.name = f.name).map name := by
  have hname : name ∘ supersede src = name := funext fun d => name_supersede src d
  rw [merged, List.map_append, List.map_map, hname]

/-- Merging keeps names distinct. -/
theorem nodup_merged {dest src : List Func} (hdest : (dest.map name).Nodup)
    (hsrc : (src.map name).Nodup) : ((merged dest src).map name).Nodup := by
  rw [map_name_merged, List.nodup_append]
  refine ⟨hdest, hsrc.sublist (List.filter_sublist.map _), ?_⟩
  intro a ha b hb hab
  obtain ⟨d, hd, rfl⟩ := List.mem_map.1 ha
  obtain ⟨f, hf, rfl⟩ := List.mem_map.1 hb
  have hnew := (List.mem_filter.1 hf).2
  rw [Bool.not_eq_true', List.any_eq_false] at hnew
  exact hnew d hd (by simpa using hab)

section Concat

variable {dest src : List Func} {f : Func}

/-- One more function of the source matters only to declarations of its name. -/
theorem supersede_concat_of_ne {d : Func} (h : d.name ≠ f.name ∨ f.isDeclared = true) :
    supersede (src ++ [f]) d = supersede src d := by
  have hnone : [f].find? (fun g => g.name = d.name && !g.isDeclared) = none := by
    rcases h with h | h
    · have hne : f.name ≠ d.name := fun he => h he.symm
      simp [hne]
    · simp [h]
  rw [supersede, supersede, List.find?_append, hnone, Option.or_none]

/-- A definition takes the place of a declaration. -/
theorem supersede_of_mem {d : Func} (hf : f ∈ src) (honly : ∀ g ∈ src, g.name = f.name → g = f)
    (hname : d.name = f.name) (hdef : f.isDeclared = false) (hd : d.isDeclared = true) :
    supersede src d = f := by
  rw [supersede, if_pos hd]
  cases hfind : src.find? fun g => g.name = d.name && !g.isDeclared with
  | none =>
      have hnot := List.find?_eq_none.1 hfind f hf
      simp [hname, hdef] at hnot
  | some g =>
      have hfields := List.find?_some hfind
      rw [Bool.and_eq_true, decide_eq_true_iff] at hfields
      exact honly g (List.mem_of_find?_eq_some hfind) (hfields.1.trans hname)

/-- A function of which the source has none is not superseded. -/
theorem supersede_of_forall_ne {d : Func} (hsrc : ∀ g ∈ src, g.name ≠ d.name) :
    supersede src d = d := by
  have hnone : src.find? (fun g => g.name = d.name && !g.isDeclared) = none := by
    rw [List.find?_eq_none]
    intro g hg
    simp [hsrc g hg]
  rw [supersede, hnone]
  split <;> rfl

/-- A function with a new name comes last. -/
theorem merged_concat_of_new (h : ∀ d ∈ dest, d.name ≠ f.name) :
    merged dest (src ++ [f]) = merged dest src ++ [f] := by
  have hmap : dest.map (supersede (src ++ [f])) = dest.map (supersede src) :=
    List.map_congr_left fun d hd => supersede_concat_of_ne (Or.inl (h d hd))
  have hnew : (dest.any fun d => d.name = f.name) = false := by
    rw [List.any_eq_false]
    intro d hd
    simpa using h d hd
  rw [merged, merged, hmap, List.filter_append, List.append_assoc]
  simp [hnew]

/-- A further declaration of what is there changes nothing. -/
theorem merged_concat_of_declared (hf : f.isDeclared = true) {d : Func} (hd : d ∈ dest)
    (hname : d.name = f.name) : merged dest (src ++ [f]) = merged dest src := by
  have hmap : dest.map (supersede (src ++ [f])) = dest.map (supersede src) :=
    List.map_congr_left fun d _ => supersede_concat_of_ne (Or.inr hf)
  have hold : (dest.any fun d => d.name = f.name) = true :=
    List.any_eq_true.2 ⟨d, hd, by simpa using hname⟩
  rw [merged, merged, hmap, List.filter_append]
  simp [hold]

/-- A definition takes the place of the declaration. -/
theorem merged_concat_of_defined (hdest : (dest.map name).Nodup) (hf : f.isDeclared = false)
    (hsrc : ∀ g ∈ src, g.name ≠ f.name) {d : Func} (hd : d ∈ dest) (hname : d.name = f.name)
    (hdecl : d.isDeclared = true) :
    merged dest (src ++ [f]) = (merged dest src).map fun g => if g.name = f.name then f else g := by
  have hold : (dest.any fun d => d.name = f.name) = true :=
    List.any_eq_true.2 ⟨d, hd, by simpa using hname⟩
  rw [merged, merged, List.map_append, List.map_map]
  congr 1
  · refine List.map_congr_left fun e he => ?_
    rw [Function.comp_apply, name_supersede]
    by_cases hsame : e.name = f.name
    · have hed : e = d := List.inj_on_of_nodup_map hdest he hd (hsame.trans hname.symm)
      rw [if_pos hsame, hed]
      refine supersede_of_mem (List.mem_append_right _ (List.mem_singleton_self f)) ?_
        hname hf hdecl
      intro g hg hgname
      rcases List.mem_append.1 hg with hg | hg
      · exact absurd hgname (hsrc g hg)
      · exact List.mem_singleton.1 hg
    · rw [if_neg hsame]
      exact supersede_concat_of_ne (Or.inl hsame)
  · rw [List.filter_append, map_ite_of_forall_ne]
    · simp [hold]
    · intro g hg
      exact hsrc g (List.mem_filter.1 hg).1

end Concat

section Members

variable {dest src : List Func}

/-- Every place of the destination keeps its function or takes the definition of that name. -/
theorem getElem?_merged {k : Nat} {d : Func} (h : dest[k]? = some d) :
    (merged dest src)[k]? = some (supersede src d) := by
  have hlt : k < (dest.map (supersede src)).length := by
    rw [List.length_map]
    exact (List.getElem?_eq_some_iff.1 h).1
  rw [merged, List.getElem?_append_left hlt, List.getElem?_map, h]
  rfl

/-- Behind the functions of the destination come those with new names. -/
theorem drop_merged : (merged dest src).drop dest.length =
    src.filter fun f => !dest.any fun d => d.name = f.name := by
  have hlength : dest.length = (dest.map (supersede src)).length := (List.length_map _).symm
  rw [merged, hlength, List.drop_left]

/-- A definition that meets declarations only is there after a merge. -/
theorem mem_merged_of_defined (hsrc : (src.map name).Nodup) {f : Func} (hf : f ∈ src)
    (hdef : f.isDeclared = false) (hdest : ∀ d ∈ dest, d.name = f.name → d.isDeclared = true) :
    f ∈ merged dest src := by
  by_cases hnew : ∃ d ∈ dest, d.name = f.name
  · obtain ⟨d, hd, hname⟩ := hnew
    have honly : ∀ g ∈ src, g.name = f.name → g = f := fun g hg =>
      List.inj_on_of_nodup_map hsrc hg hf
    rw [← supersede_of_mem hf honly hname hdef (hdest d hd hname)]
    exact List.mem_append_left _ (List.mem_map_of_mem hd)
  · refine List.mem_append_right _ (List.mem_filter.2 ⟨hf, ?_⟩)
    rw [Bool.not_eq_true', List.any_eq_false]
    intro d hd hname
    exact hnew ⟨d, hd, by simpa using hname⟩

/-- A definition is not superseded. -/
theorem supersede_of_defined {d : Func} (h : d.isDeclared = false) : supersede src d = d := by
  rw [supersede, h]
  rfl

/-- What is in a merge was in the destination, or it comes from the source and is new or a
definition in the place of a declaration. -/
theorem mem_merged_cases (hdest : (dest.map name).Nodup) {g : Func}
    (h : g ∈ merged dest src) :
    g ∈ dest ∨ g ∈ src ∧ ∀ d ∈ dest, d.name = g.name → d.isDeclared = true ∧
    g.isDeclared = false := by
  rcases List.mem_append.1 h with hold | hnew
  · obtain ⟨d, hd, rfl⟩ := List.mem_map.1 hold
    unfold supersede
    split
    · rename_i hdecl
      cases hfind : src.find? fun f => f.name = d.name && !f.isDeclared with
      | none => exact Or.inl hd
      | some g =>
          have hg := List.find?_some hfind
          simp only [Bool.and_eq_true, decide_eq_true_iff, Bool.not_eq_true'] at hg
          refine Or.inr ⟨List.mem_of_find?_eq_some hfind, fun e he hname => ?_⟩
          rw [List.inj_on_of_nodup_map hdest he hd (hname.trans hg.1)]
          exact ⟨hdecl, hg.2⟩
    · exact Or.inl hd
  · obtain ⟨hg, hnone⟩ := List.mem_filter.1 hnew
    refine Or.inr ⟨hg, fun d hd hname => ?_⟩
    rw [Bool.not_eq_true', List.any_eq_false] at hnone
    exact absurd (decide_eq_true hname) (hnone d hd)

end Members

/-- The functions of a destination after those of a source have been moved in. -/
def linked (dest src : List Func) : List Func :=
  merged (dest.map (recast dest src)) (landed dest src)

@[simp] theorem linked_nil (dest : List Func) : linked dest [] = dest := by
  have hself : recast dest [] = fun d => d := funext fun d => d.recast_nil dest
  have hnone : supersede [] = fun d => d :=
    funext fun d => supersede_of_forall_ne fun g hg => absurd hg List.not_mem_nil
  simp [linked, merged, landed, hself, hnone]

/-- One more function is moved and recasts what is there. -/
theorem linked_concat (dest src : List Func) (f : Func) :
    linked dest (src ++ [f]) =
      (merged (dest.map (recast dest src)) (landed dest src ++ [f])).map (recast dest [f]) := by
  rw [map_merged (name_recast dest [f]) (isDeclared_recast dest [f]), ← landed_concat, List.map_map,
    linked]
  congr 1
  exact List.map_congr_left fun d _ => d.recast_append dest src [f]

/-- Recasting does not show in skeletons. -/
theorem map_skeleton_linked (dest src : List Func) :
    (linked dest src).map skeleton = (merged dest src).map skeleton := by
  rw [linked, map_skeleton_merged, map_skeleton_merged, List.map_map,
    map_landed (skeleton_recast dest)]
  congr 1
  exact List.map_congr_left fun d _ => d.skeleton_recast dest src

theorem map_name_recast (dest src fs : List Func) :
    (fs.map (recast dest src)).map name = fs.map name := by
  rw [List.map_map]
  rfl

/-- Linking keeps names distinct. -/
theorem nodup_linked {dest src : List Func} (hdest : (dest.map name).Nodup)
    (hsrc : (src.map name).Nodup) : ((linked dest src).map name).Nodup := by
  refine nodup_merged ?_ ?_
  · rwa [map_name_recast]
  · rwa [map_name_landed]

end Func

namespace Module

/-- The functions of a source that have been moved into a destination. -/
structure Moved (dest : Module) (done : List Func) (s : Module × Nat) : Prop where
  /-- The functions are those of both modules. -/
  functions : s.1.functions = Func.linked dest.functions done
  /-- Every definition is counted. -/
  count : s.2 = done.countP fun f => !f.isDeclared
  /-- The count is how many functions have got a body. -/
  grown : s.1.functions.countP (fun f => !f.isDeclared) =
    dest.functions.countP (fun f => !f.isDeclared) + s.2

/-- Up to casts, functions that were moved are merged. -/
theorem Moved.skeletons {dest : Module} {done : List Func} {s : Module × Nat}
    (h : Moved dest done s) :
    s.1.functions.map Func.skeleton = (Func.merged dest.functions done).map Func.skeleton := by
  rw [h.functions, Func.map_skeleton_linked]

/-- Moving functions keeps names distinct. -/
theorem Moved.distinctNames {dest : Module} {done : List Func} {s : Module × Nat}
    (h : Moved dest done s) (hdest : dest.DistinctNames) (hdone : (done.map Func.name).Nodup) :
    s.1.DistinctNames := by
  rw [DistinctNames, h.functions]
  exact Func.nodup_linked hdest hdone

/-- Casting callers gives no function a body and takes none. -/
theorem countP_castCallers (name : String) (m : Module) :
    (m.castCallers name).functions.countP (fun f => !f.isDeclared) =
      m.functions.countP fun f => !f.isDeclared := by
  unfold castCallers
  split
  · rfl
  · rw [functions_mapFuncs, List.countP_map]
    simp only [Function.comp_def, Func.isDeclared_mapInstrs]

/-- A function whose name was not moved comes from the destination. -/
theorem Moved.exists_dest {dest : Module} {done : List Func} {s : Module × Nat}
    (h : Moved dest done s) {old : Func} {name : String} (hold : s.1.func? name = some old)
    (hother : ∀ g ∈ done, g.name ≠ name) :
    ∃ d ∈ dest.functions, d.name = name ∧ old = d.recast dest.functions done := by
  obtain ⟨hmem, hname⟩ := mem_of_func? hold
  have hother' : ∀ g ∈ Func.landed dest.functions done, g.name ≠ name := by
    intro g hg hsame
    have hin : name ∈ done.map Func.name := by
      rw [← Func.map_name_landed dest.functions, ← hsame]
      exact List.mem_map_of_mem hg
    obtain ⟨f, hf, hfname⟩ := List.mem_map.1 hin
    exact hother f hf hfname
  rw [h.functions] at hmem
  rcases List.mem_append.1 hmem with hmem | hmem
  · obtain ⟨d', hd', rfl⟩ := List.mem_map.1 hmem
    obtain ⟨d, hd, rfl⟩ := List.mem_map.1 hd'
    rw [Func.name_supersede, Func.name_recast] at hname
    refine ⟨d, hd, hname, Func.supersede_of_forall_ne fun g hg => ?_⟩
    rw [Func.name_recast, hname]
    exact hother' g hg
  · exact absurd hname (hother' old (List.mem_filter.1 hmem).1)

/-- A name that is not found is not a name of the destination. -/
theorem Moved.forall_ne {dest : Module} {done : List Func} {s : Module × Nat}
    (h : Moved dest done s) {name : String} (hnone : s.1.func? name = none) :
    ∀ d ∈ dest.functions, d.name ≠ name := by
  intro d hd hname
  have hmem : Func.supersede (Func.landed dest.functions done) (d.recast dest.functions done) ∈
      s.1.functions := by
    rw [h.functions]
    exact List.mem_append_left _ (List.mem_map_of_mem (List.mem_map_of_mem hd))
  refine func?_eq_none_iff.1 hnone _ hmem ?_
  rw [Func.name_supersede, Func.name_recast, hname]

/-- Putting a definition in the place of a declaration, and callers behind casts if they need it. -/
theorem Moved.replace {dest : Module} (hdest : dest.DistinctNames) {done : List Func} {f : Func}
    {s : Module × Nat} (h : Moved dest done s) (hnames : s.1.DistinctNames)
    (hother : ∀ g ∈ done, g.name ≠ f.name) (hdef : f.isDeclared = false) {old : Func}
    (hold : s.1.func? f.name = some old) (hdecl : old.isDeclared = true) :
    (if old.sig = f.sig then s.1.modifyFunc f.name fun _ => f
      else (s.1.modifyFunc f.name fun _ => f).castCallers f.name).functions =
      Func.linked dest.functions (done ++ [f]) := by
  obtain ⟨d, hd, hdname, rfl⟩ := h.exists_dest hold hother
  rw [Func.isDeclared_recast] at hdecl
  have hmodified : (s.1.modifyFunc f.name fun _ => f).functions = Func.merged
      (dest.functions.map (Func.recast dest.functions done))
      (Func.landed dest.functions done ++ [f]) := by
    rw [Func.merged_concat_of_defined (d := d.recast dest.functions done) ?_ hdef ?_
      (List.mem_map_of_mem hd) hdname (by rwa [Func.isDeclared_recast]),
      hnames.modifyFunc_functions, h.functions]
    · rfl
    · rwa [Func.map_name_recast]
    · intro g hg hsame
      have hin : f.name ∈ (Func.landed dest.functions done).map Func.name := by
        rw [← hsame]
        exact List.mem_map_of_mem hg
      rw [Func.map_name_landed] at hin
      obtain ⟨g', hg', hsame'⟩ := List.mem_map.1 hin
      exact hother g' hg' hsame'
  have hiff := Func.recasts_iff hdest hd hdname hdecl hdef
  rw [Func.linked_concat]
  split
  · rename_i hsig
    have hkept : f.recasts dest.functions = false := by
      rw [Bool.eq_false_iff, ne_eq, hiff, not_not]
      exact hsig
    rw [hmodified, List.map_congr_left fun g _ => Func.recast_singleton_of_not_recasts hkept g,
      List.map_id']
  · rename_i hsig
    have hfound : (s.1.modifyFunc f.name fun _ => f).func? f.name = some f :=
      find?_modifyFirst_const hold (by simp)
    rw [castCallers, hfound, functions_mapFuncs, hmodified]
    exact List.map_congr_left fun g _ => (Func.recast_singleton_of_recasts (hiff.2 hsig) g).symm

/-- Moving one more function. -/
theorem Moved.mergeFunc {dest : Module} (hdest : dest.DistinctNames) {done : List Func} {f : Func}
    (hdone : ((done ++ [f]).map Func.name).Nodup) {s s' : Module × Nat} (h : Moved dest done s)
    (hs : mergeFunc s f = .ok s') : Moved dest (done ++ [f]) s' := by
  rw [List.map_append, List.nodup_append] at hdone
  obtain ⟨hdistinct, _, hnew⟩ := hdone
  have hother : ∀ g ∈ done, g.name ≠ f.name := fun g hg =>
    hnew _ (List.mem_map_of_mem hg) _ (by simp)
  have hcount : (done ++ [f]).countP (fun f => !f.isDeclared) =
      if f.isDeclared then s.2 else s.2 + 1 := by
    rw [List.countP_append, h.count]
    cases hf : f.isDeclared <;> simp [hf]
  have hkeep : f.recasts dest.functions = false → Func.linked dest.functions (done ++ [f]) =
      Func.merged (dest.functions.map (Func.recast dest.functions done))
        (Func.landed dest.functions done ++ [f]) := by
    intro hnone
    rw [Func.linked_concat,
      List.map_congr_left fun g _ => Func.recast_singleton_of_not_recasts hnone g, List.map_id']
  unfold Module.mergeFunc at hs
  cases hold : s.1.func? f.name with
  | none =>
      simp only [hold, Except.ok.injEq] at hs
      subst hs
      have hfresh := h.forall_ne hold
      refine ⟨?_, hcount.symm, ?_⟩
      · rw [hkeep (Func.recasts_of_forall_ne hfresh), Func.merged_concat_of_new ?_, addFunc,
          h.functions]
        · rfl
        · intro e he
          obtain ⟨d, hd, rfl⟩ := List.mem_map.1 he
          exact hfresh d hd
      · rw [addFunc, List.countP_append, h.grown]
        cases hf : f.isDeclared <;> simp [hf, Nat.add_assoc]
  | some old =>
      simp only [hold] at hs
      cases hf : f.isDeclared with
      | true =>
          simp only [hf, if_true, Except.ok.injEq] at hs
          subst hs
          obtain ⟨d, hd, hdname, _⟩ := h.exists_dest hold hother
          refine ⟨?_, ?_, h.grown⟩
          · rw [hkeep (Func.recasts_of_isDeclared hf _), Func.merged_concat_of_declared hf
              (d := d.recast dest.functions done) (List.mem_map_of_mem hd) hdname]
            exact h.functions
          · rw [hcount, if_pos hf]
      | false =>
          simp only [hf, Bool.false_eq_true, if_false] at hs
          cases hdef : old.isDeclared with
          | false => simp [hdef] at hs
          | true =>
              simp only [hdef, Bool.not_true, Bool.false_eq_true, if_false, Except.ok.injEq] at hs
              subst hs
              have hnames := h.distinctNames hdest hdistinct
              refine ⟨h.replace hdest hnames hother hf hold hdef, ?_, ?_⟩
              · rw [hcount, hf]
                rfl
              · have hsucc := countP_modifyFirst_succ (q := fun f => !f.isDeclared) (b := f) hold
                  (by rw [hdef]; rfl) (by rw [hf]; rfl)
                have hsame : (if old.sig = f.sig then s.1.modifyFunc f.name fun _ => f
                    else (s.1.modifyFunc f.name fun _ => f).castCallers f.name).functions.countP
                      (fun f => !f.isDeclared) =
                    (s.1.modifyFunc f.name fun _ => f).functions.countP
                      (fun f => !f.isDeclared) := by
                  split
                  · rfl
                  · exact countP_castCallers f.name _
                dsimp only
                rw [hsame]
                refine hsucc.trans ?_
                rw [h.grown, Nat.add_assoc]

/-- Moving a global variable moves no function. -/
theorem mergeGlobal_functions {dest dest' : Module} {g : Global}
    (h : mergeGlobal dest g = .ok dest') : dest'.functions = dest.functions := by
  unfold mergeGlobal at h
  split at h
  · cases h
    rfl
  · split at h
    · cases h
      rfl
    · split at h
      · cases h
        rfl
      · cases h

/-- Moving variables moves no function. -/
theorem functions_of_mergeGlobals {dest mid : Module} {gs : List Global}
    (h : stepAll mergeGlobal dest gs = (.ok (), mid)) : mid.functions = dest.functions :=
  stepAll_induction (motive := fun _ m => m.functions = dest.functions) rfl
    (fun _ _ _ _ _ _ hm hstep => (mergeGlobal_functions hstep).trans hm) h

/-- Moving a function moves no variable. -/
theorem mergeFunc_globals {s s' : Module × Nat} {f : Func} (h : mergeFunc s f = .ok s') :
    s'.1.globals = s.1.globals := by
  have hcast : ∀ (m : Module) name, (m.castCallers name).globals = m.globals := by
    intro m name
    unfold castCallers
    split <;> rfl
  unfold mergeFunc at h
  split at h
  · cases h
    rfl
  · split at h
    · cases h
      rfl
    · split at h
      · cases h
      · cases h
        dsimp only
        split
        · rfl
        · exact hcast _ _

/-- Moving functions moves no variable. -/
theorem globals_of_mergeFuncs {s t : Module × Nat} {fs : List Func}
    (h : stepAll mergeFunc s fs = (.ok (), t)) : t.1.globals = s.1.globals :=
  stepAll_induction (motive := fun _ r => r.1.globals = s.1.globals) rfl
    (fun _ _ _ _ _ _ hr hstep => (mergeFunc_globals hstep).trans hr) h

/-- No function is moved at the start. -/
theorem Moved.start {dest mid : Module} (h : mid.functions = dest.functions) :
    Moved dest [] (mid, 0) :=
  ⟨h.trans (Func.linked_nil _).symm, rfl, by rw [h]; rfl⟩

/-- Moving functions one after the other. -/
theorem moved_of_mergeFuncs {dest mid : Module} (hdest : dest.DistinctNames)
    (hmid : mid.functions = dest.functions) {fs : List Func} (hfs : (fs.map Func.name).Nodup)
    {s : Module × Nat} (h : stepAll mergeFunc (mid, 0) fs = (.ok (), s)) : Moved dest fs s := by
  refine stepAll_induction (motive := fun done s => Moved dest done s) (Moved.start hmid) ?_ h
  intro done f rest s s' hsplit hdone hstep
  refine hdone.mergeFunc hdest ?_ hstep
  have hinit : done ++ [f] <+: fs := ⟨rest, by rw [hsplit]; simp⟩
  exact hfs.sublist (hinit.sublist.map _)

/-- Moving all symbols of a source moves all its functions. -/
theorem merge_functions {dest src out : Module} (hdest : dest.DistinctNames)
    (hsrc : src.DistinctNames) {gained : Nat} (h : dest.merge src = (.ok gained, out)) :
    Moved dest src.functions (out, gained) := by
  unfold merge at h
  split at h
  · cases h
  · rename_i dest' hglobals
    split at h
    · cases h
    · rename_i out' gained' hmoved
      cases h
      exact moved_of_mergeFuncs hdest (functions_of_mergeGlobals hglobals) hsrc hmoved

/-- A link that succeeds settles the clashes and then moves all symbols. -/
theorem link_cases {dest src out : Module} {gained : Nat} (h : dest.link src = (.ok gained, out)) :
    ∃ src', stepAll (settleClash dest) src (clashes dest src) = (.ok (), src') ∧
      dest.merge src' = (.ok gained, out) := by
  unfold link at h
  cases hstored : src.functions.find? Func.isStored with
  | some f => rw [hstored] at h; cases h
  | none =>
      rw [hstored] at h
      simp only at h
      split at h
      · cases h
      · rename_i src' hsettled
        exact ⟨src', hsettled, h⟩

/-- Linking settles the clashes by one renaming of the source and then moves its functions. -/
theorem link_eq {dest src out : Module} (hdest : dest.DistinctNames) (hsrc : src.DistinctNames)
    {gained : Nat} (h : dest.link src = (.ok gained, out)) :
    ∃ ρ src', Settled dest src (clashes dest src) ρ src' ∧
      Moved dest src'.functions (out, gained) := by
  obtain ⟨src', hsettled, hmerge⟩ := link_cases h
  obtain ⟨ρ, hρ⟩ := exists_settled hsrc hsettled
  exact ⟨ρ, src', hρ, merge_functions hdest hρ.names hmerge⟩

end Module

end Postlink
