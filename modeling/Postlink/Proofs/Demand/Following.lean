import Postlink.Proofs.Demand.Opening

/-!
# The calls that a walk follows

In a program some bodies may be loaded and others still stored. The walk takes the functions of the
program in order, each as a root, and follows the calls of a function the first time that it comes
to it. If the body is not there by then, the function counts as visited all the same, and its calls
are not followed when a later call has the body loaded. So on behalf of a root, calls lead on to
stored bodies of the library, and to stored bodies of the program as long as their functions come
after the root (`Follows`). The walk loads what the functions followed call, and nothing else
(`Demand.stores_library_iff`, `Demand.stores_program_iff`).
-/

namespace Postlink

/-- In a list without repetitions, what follows an element comes after it. -/
theorem pair_sublist_iff {α : Type} {done rest : List α} {a b : α}
    (h : (done ++ a :: rest).Nodup) : [a, b].Sublist (done ++ a :: rest) ↔ b ∈ rest := by
  have hnot : a ∉ done := by
    intro ha
    exact (List.nodup_append.1 h).2.2 a ha a (List.mem_cons_self ..) rfl
  constructor
  · intro hsub
    obtain ⟨left, right, hsplit, hleft, hright⟩ := List.sublist_append_iff.1 hsub
    cases left with
    | nil =>
        rw [List.nil_append] at hsplit
        rw [← hsplit, List.cons_sublist_cons] at hright
        exact List.singleton_sublist.1 hright
    | cons c left =>
        rw [List.cons_append, List.cons.injEq] at hsplit
        exact absurd (hsplit.1 ▸ hleft.subset (List.mem_cons_self ..)) hnot
  · intro hb
    have hpair : [a, b].Sublist (a :: rest) :=
      List.cons_sublist_cons.2 (List.singleton_sublist.2 hb)
    exact hpair.trans (List.sublist_append_right ..)

/-- The functions that are followed on behalf of a root. -/
inductive Follows (program library : Module) (root : String) : Side → String → Prop where
  /-- The root itself, if its body is there. -/
  | root (hthere : (program.func? root).isSome = true) (hloaded : program.stores root = false) :
      Follows program library root .program root
  /-- A stored body that a function followed calls; in the program, one that comes after the
  root. -/
  | call {side target : Side} {caller callee : String}
      (hcaller : Follows program library root side caller)
      (hcall : callee ∈ (Demand.origin program library side).callees caller)
      (hprovider : (Demand.start program library).provider? side callee = some target)
      (hstored : (Demand.origin program library target).stores callee = true)
      (hahead : target = .program → [root, callee].Sublist (program.functions.map Func.name)) :
      Follows program library root target callee

namespace Demand

variable {program library : Module} {d : Demand}

/-- A walk in which the roots `done` have had their turn, those in `now` have it, and some requests
are still to be served. -/
structure Tracked (program library : Module) (done now : List String) (d : Demand)
    (pending : List Request) : Prop where
  /-- Bodies are decoded, and conventions change. -/
  opens : ∀ side, (origin program library side).Opens (d.module side)
  /-- Roots are visited. -/
  begun : ∀ root ∈ done ++ now, (Side.program, root) ∈ d.visited
  /-- What is visited is followed with its body there, unless it is a root. -/
  followed : ∀ side name, (side, name) ∈ d.visited →
    ((∃ root ∈ done ++ now, Follows program library root side name) ∧
      (d.module side).stores name = false) ∨ side = .program ∧ name ∈ done ++ now
  /-- What is loaded is visited, and a function that is followed calls it. -/
  called : ∀ side name, (origin program library side).stores name = true →
    (d.module side).stores name = false → (side, name) ∈ d.visited ∧
      ∃ root ∈ done ++ now, ∃ from' caller, Follows program library root from' caller ∧
        name ∈ (origin program library from').callees caller ∧
        (start program library).provider? from' name = some side
  /-- Everything is loaded that was followed for the roots before. -/
  finished : ∀ root ∈ done, ∀ side name, Follows program library root side name →
    (side, name) ∈ d.visited ∧ (d.module side).stores name = false
  /-- Requests are calls of functions followed for the root in turn. -/
  asked : ∀ r ∈ pending, ∃ root ∈ now, ∃ caller, Follows program library root r.side caller ∧
    r.callee ∈ (origin program library r.side).callees caller
  /-- What functions call that were visited and followed is loaded or requested. -/
  served : ∀ side caller, (side, caller) ∈ d.visited →
    (∃ root ∈ done ++ now, Follows program library root side caller) →
    ∀ callee ∈ (origin program library side).callees caller, ∀ target,
      (start program library).provider? side callee = some target →
      (d.module target).stores callee = false ∨ ∃ r ∈ pending, r.side = side ∧ r.callee = callee

namespace Tracked

variable {done now : List String} {pending : List Request}

theorem start (program library : Module) :
    Tracked program library [] [] (start program library) [] := by
  have hopens : ∀ side, (origin program library side).Opens
      ((Demand.start program library).module side) := by
    intro side
    cases side <;> exact .refl _
  refine ⟨hopens, ?_, ?_, ?_, ?_, ?_, ?_⟩
  · intro root hroot
    cases hroot
  · intro side name hv
    cases hv
  · intro side name hstored hnot
    have hsame : (origin program library side).stores name =
        ((Demand.start program library).module side).stores name := by cases side <;> rfl
    rw [hsame, hnot] at hstored
    cases hstored
  · intro root hroot
    cases hroot
  · intro r hr
    cases hr
  · intro side caller hv
    cases hv

/-- Who provides a callee does not change during a walk. -/
theorem provider?_eq (h : Tracked program library done now d pending) (side : Side)
    (callee : String) :
    d.provider? side callee = (Demand.start program library).provider? side callee := by
  have hside := (h.opens side).defines_eq callee
  have hlibrary : d.library.defines callee = library.defines callee :=
    (h.opens .library).defines_eq callee
  have horigin : (Demand.start program library).module side = origin program library side := by
    cases side <;> rfl
  unfold provider?
  rw [horigin, hside, hlibrary]
  rfl

/-- When all requests are served, everything is loaded that was followed for the root in turn. -/
theorem finish (h : Tracked program library done now d []) :
    Tracked program library (done ++ now) [] d [] := by
  have hfinished : ∀ root ∈ done ++ now, ∀ side name, Follows program library root side name →
      (side, name) ∈ d.visited ∧ (d.module side).stores name = false := by
    intro root hroot side name hfollows
    induction hfollows with
    | root hthere hloaded =>
        refine ⟨h.begun root hroot, ?_⟩
        cases hstored : (d.module .program).stores root with
        | false => rfl
        | true =>
            have horigin := (h.opens .program).stored root hstored
            rw [origin, hloaded] at horigin
            cases horigin
    | @call side target caller callee hcaller hcall hprovider hstored _ ih =>
        have hloaded : (d.module target).stores callee = false := by
          rcases h.served side caller ih.1 ⟨root, hroot, hcaller⟩ callee hcall target hprovider with
            hloaded | ⟨r, hr, _⟩
          · exact hloaded
          · cases hr
        exact ⟨(h.called target callee hstored hloaded).1, hloaded⟩
  have hnow : done ++ now ++ [] = done ++ now := List.append_nil _
  refine ⟨h.opens, ?_, ?_, ?_, hfinished, ?_, ?_⟩
  · rw [hnow]
    exact h.begun
  · rw [hnow]
    exact h.followed
  · rw [hnow]
    exact h.called
  · intro r hr
    cases hr
  · rw [hnow]
    exact h.served

/-- For a root nothing is followed in the program that comes before it. -/
theorem eq_root_of_follows (hnames : program.DistinctNames) {root : String} {rest : List String}
    (horder : program.functions.map Func.name = done ++ root :: rest) {name : String}
    (hfollows : Follows program library root .program name) (hname : name ∈ done ++ [root]) :
    name = root ∧ program.stores root = false := by
  have hnodup : (done ++ root :: rest).Nodup := horder ▸ hnames
  cases hfollows with
  | root _ hloaded => exact ⟨rfl, hloaded⟩
  | call _ _ _ _ hahead =>
      have hrest := (pair_sublist_iff hnodup).1 (horder ▸ hahead rfl)
      have hdisjoint := (List.nodup_append.1 (List.append_cons done root rest ▸ hnodup)).2.2
      exact absurd rfl (hdisjoint name hname name hrest)

/-- What was visited before a root has its turn was followed for another root, if at all. -/
theorem exists_root_of_mem (h : Tracked program library done [] d [])
    (hnames : program.DistinctNames) {root : String} {rest : List String}
    (horder : program.functions.map Func.name = done ++ root :: rest) {side : Side} {name : String}
    (hv : (side, name) ∈ d.visited)
    (hfollows : ∃ root' ∈ done ++ [root], Follows program library root' side name) :
    ∃ root' ∈ done ++ [], Follows program library root' side name := by
  rcases h.followed side name hv with ⟨hbefore, _⟩ | ⟨rfl, hname⟩
  · exact hbefore
  · rw [List.append_nil] at hname
    obtain ⟨root', hroot', hfollows⟩ := hfollows
    rcases List.mem_append.1 hroot' with hmem | hmem
    · exact ⟨root', List.mem_append_left _ hmem, hfollows⟩
    · rw [List.mem_singleton.1 hmem] at hfollows
      obtain ⟨rfl, _⟩ := eq_root_of_follows hnames horder hfollows (List.mem_append_left _ hname)
      have hdisjoint := (List.nodup_append.1 (horder ▸ hnames : (done ++ name :: rest).Nodup)).2.2
      exact absurd rfl (hdisjoint name hname name (List.mem_cons_self ..))

/-- A root whose body is there when it is first visited is followed for its own sake. -/
theorem follows_root (h : Tracked program library done [] d []) {root : String}
    (hthere : (program.func? root).isSome = true) (hv : (Side.program, root) ∉ d.visited)
    (hloaded : (d.module .program).stores root = false) :
    Follows program library root .program root := by
  refine .root hthere ?_
  by_contra hstores
  exact hv (h.called .program root (Bool.not_eq_false _ ▸ hstores) hloaded).1

/-- A root has its turn. -/
theorem visit (h : Tracked program library done [] d []) (hnames : program.DistinctNames)
    {root : String} {rest : List String}
    (horder : program.functions.map Func.name = done ++ root :: rest) :
    Tracked program library done [root] (d.visit .program root).1 (d.visit .program root).2 := by
  have ha := Attended.of_visit h.opens .program root
  have hthere : (program.func? root).isSome = true := by
    rw [Module.isSome_func?_iff, horder]
    exact List.mem_append_right _ (List.mem_cons_self ..)
  have hlater : ∀ root' ∈ done ++ [], root' ∈ done ++ [root] := by
    intro root' hroot'
    rw [List.append_nil] at hroot'
    exact List.mem_append_left _ hroot'
  have hturn : root ∈ done ++ [root] := List.mem_append_right _ (List.mem_singleton_self _)
  refine ⟨ha.opens, ?_, ?_, ?_, ?_, ?_, ?_⟩
  · intro root' hroot'
    rw [ha.visited_iff]
    rcases List.mem_append.1 hroot' with hmem | hmem
    · exact Or.inr (h.begun root' (List.mem_append_left _ hmem))
    · rw [List.mem_singleton.1 hmem]
      exact Or.inl rfl
  · intro side name hv
    rcases (ha.visited_iff _).1 hv with he | hv
    · cases he
      exact Or.inr ⟨rfl, hturn⟩
    · rcases h.followed side name hv with ⟨⟨root', hroot', hfollows⟩, hstored⟩ | ⟨hside, hname⟩
      · exact Or.inl ⟨⟨root', hlater root' hroot', hfollows⟩, ha.loaded side name hstored⟩
      · exact Or.inr ⟨hside, hlater name hname⟩
  · intro side name hstored hloaded
    rw [stores_visit] at hloaded
    obtain ⟨hv, root', hroot', hcall⟩ := h.called side name hstored hloaded
    exact ⟨(ha.visited_iff _).2 (Or.inr hv), root', hlater root' hroot', hcall⟩
  · intro root' hroot' side name hfollows
    obtain ⟨hv, hloaded⟩ := h.finished root' hroot' side name hfollows
    exact ⟨(ha.visited_iff _).2 (Or.inr hv), ha.loaded side name hloaded⟩
  · intro r hr
    obtain ⟨hv, hloaded, hside, hcallee⟩ := ha.asked r hr
    rw [stores_visit] at hloaded
    rw [hside]
    exact ⟨root, List.mem_singleton_self _, root, h.follows_root hthere hv hloaded, hcallee⟩
  · intro side caller hv hfollows callee hcallee target hprovider
    by_cases hseen : (side, caller) ∈ d.visited
    · have hbefore := h.exists_root_of_mem hnames horder hseen hfollows
      rcases h.served side caller hseen hbefore callee hcallee target hprovider with
        hloaded | ⟨r, hr, _⟩
      · exact Or.inl (ha.loaded target callee hloaded)
      · cases hr
    · cases ((ha.visited_iff _).1 hv).resolve_right hseen
      -- The root was not visited for another one, so its body was there from the start.
      obtain ⟨root', hroot', hfollows⟩ := hfollows
      have hroot : Follows program library root .program root := by
        rcases List.mem_append.1 hroot' with hmem | hmem
        · exact absurd (h.finished root' hmem _ _ hfollows).1 hseen
        · rwa [List.mem_singleton.1 hmem] at hfollows
      obtain ⟨_, hloaded⟩ := eq_root_of_follows hnames horder hroot hturn
      refine Or.inr (ha.listed hseen ?_ callee hcallee)
      rw [stores_visit]
      by_contra hstored
      have hstores := (h.opens .program).stored root (Bool.not_eq_false _ ▸ hstored)
      rw [origin, hloaded] at hstores
      cases hstores

/-- A request that needs nothing is done. -/
theorem skip {r : Request} (h : Tracked program library done now d (r :: pending))
    (hs : d.supply r = .ok none) : Tracked program library done now d pending := by
  have hmissing : d.missing? r = none := by
    unfold supply at hs
    split at hs
    · assumption
    · split at hs
      · cases hs
      · cases hs
  refine ⟨h.opens, h.begun, h.followed, h.called, h.finished,
    fun s hs => h.asked s (List.mem_cons_of_mem _ hs), ?_⟩
  intro side caller hv hfollows callee hcallee target hprovider
  rcases h.served side caller hv hfollows callee hcallee target hprovider with
    hloaded | ⟨s, hs, rfl, rfl⟩
  · exact Or.inl hloaded
  · rcases List.mem_cons.1 hs with rfl | hs
    · rw [← h.provider?_eq] at hprovider
      exact Or.inl (stores_of_missing?_eq_none hmissing hprovider)
    · exact Or.inr ⟨s, hs, rfl, rfl⟩

/-- What a request loads is followed in its turn, unless it was visited when its body was not
there. -/
theorem follows_of_not_mem (h : Tracked program library done now d pending) {root : String}
    {rest : List String} (hnames : program.DistinctNames)
    (horder : program.functions.map Func.name = done ++ root :: rest) (hnow : now = [root])
    {side target : Side} {caller callee : String}
    (hcaller : Follows program library root side caller)
    (hcall : callee ∈ (origin program library side).callees caller)
    (hprovider : (Demand.start program library).provider? side callee = some target)
    (hstored : (origin program library target).stores callee = true)
    (hv : (target, callee) ∉ d.visited) : Follows program library root target callee := by
  refine .call hcaller hcall hprovider hstored ?_
  rintro rfl
  obtain ⟨f, hf, _⟩ := Module.stores_iff.1 hstored
  obtain ⟨hmem, rfl⟩ := Module.mem_of_func? hf
  have hthere : f.name ∈ (done ++ [root]) ++ rest := by
    rw [← List.append_cons, ← horder]
    exact List.mem_map_of_mem hmem
  rw [horder, pair_sublist_iff (horder ▸ hnames)]
  rcases List.mem_append.1 hthere with hbegun | hrest
  · exact absurd (h.begun f.name (hnow ▸ hbegun)) hv
  · exact hrest

/-- A request is served by loading a body and following its calls. -/
theorem load (hnames : program.DistinctNames) {root : String} {rest : List String}
    (horder : program.functions.map Func.name = done ++ root :: rest) {r : Request}
    (h : Tracked program library done [root] d (r :: pending)) {d' : Demand} {more : List Request}
    (hs : d.supply r = .ok (some (d', more))) :
    Tracked program library done [root] d' (more ++ pending) := by
  obtain ⟨side, hprovider, hstores, hloaded, ha⟩ := Attended.of_supply h.opens hs
  rw [h.provider?_eq] at hprovider
  have horigin := (h.opens side).stored r.callee hstores
  obtain ⟨root', hroot', caller, hcaller, hcall⟩ := h.asked r (List.mem_cons_self ..)
  obtain rfl := List.mem_singleton.1 hroot'
  have hfollows : (side, r.callee) ∉ d.visited → Follows program library root' side r.callee :=
    h.follows_of_not_mem hnames horder rfl hcaller hcall hprovider horigin
  have hturn : root' ∈ done ++ [root'] := List.mem_append_right _ (List.mem_singleton_self _)
  refine ⟨ha.opens, ?_, ?_, ?_, ?_, ?_, ?_⟩
  · intro root hroot
    exact (ha.visited_iff _).2 (Or.inr (h.begun root hroot))
  · intro s n hv
    by_cases hold : (s, n) ∈ d.visited
    · exact (h.followed s n hold).imp_left fun hleft => ⟨hleft.1, ha.loaded s n hleft.2⟩
    · cases ((ha.visited_iff _).1 hv).resolve_right hold
      exact Or.inl ⟨⟨root', hturn, hfollows hold⟩, hloaded⟩
  · intro s n hstart hnow
    by_cases hthis : s = side ∧ n = r.callee
    · obtain ⟨rfl, rfl⟩ := hthis
      exact ⟨(ha.visited_iff _).2 (Or.inl rfl), root', hturn, r.side, caller, hcaller,
        hcall, hprovider⟩
    · rw [ha.stores_eq s n hthis] at hnow
      obtain ⟨hv, hcalled⟩ := h.called s n hstart hnow
      exact ⟨(ha.visited_iff _).2 (Or.inr hv), hcalled⟩
  · intro root hroot s n hn
    obtain ⟨hv, hbefore⟩ := h.finished root hroot s n hn
    exact ⟨(ha.visited_iff _).2 (Or.inr hv), ha.loaded s n hbefore⟩
  · intro q hq
    rcases List.mem_append.1 hq with hq | hq
    · obtain ⟨hv, _, hside, hcallee⟩ := ha.asked q hq
      rw [hside]
      exact ⟨root', List.mem_singleton_self _, r.callee, hfollows hv, hcallee⟩
    · exact h.asked q (List.mem_cons_of_mem _ hq)
  · intro s n hv hn callee hcallee target htarget
    by_cases hold : (s, n) ∈ d.visited
    · rcases h.served s n hold hn callee hcallee target htarget with hbefore | ⟨q, hq, rfl, rfl⟩
      · exact Or.inl (ha.loaded target callee hbefore)
      · rcases List.mem_cons.1 hq with rfl | hq
        · -- This is the request that is served now.
          rw [hprovider, Option.some.injEq] at htarget
          exact Or.inl (htarget ▸ hloaded)
        · exact Or.inr ⟨q, List.mem_append_right _ hq, rfl, rfl⟩
    · cases ((ha.visited_iff _).1 hv).resolve_right hold
      obtain ⟨q, hq, hlisted⟩ := ha.listed hold hloaded callee hcallee
      exact Or.inr ⟨q, List.mem_append_left _ hq, hlisted⟩

/-- A walk gives each of its roots a turn. -/
theorem walk (hnames : program.DistinctNames) {e : Demand} {roots : List String}
    (horder : program.functions.map Func.name = done ++ roots)
    (h : Tracked program library done [] d []) (hs : d.walk roots = .ok e) :
    Tracked program library (done ++ roots) [] e [] := by
  induction roots generalizing d done with
  | nil =>
      cases hs
      rwa [List.append_nil]
  | cons root roots ih =>
      obtain ⟨d', hserve, hs⟩ := exists_serve_of_walk hs
      have hserved : Tracked program library done [root] d' [] :=
        serve_induction (motive := fun e pending => Tracked program library done [root] e pending)
          (fun _ _ _ he hskip => he.skip hskip)
          (fun _ _ _ _ _ he hload => he.load hnames horder hload) (h.visit hnames horder) hserve
      have hnext := ih (horder.trans (List.append_cons ..)) hserved.finish hs
      rwa [← List.append_cons] at hnext

end Tracked

end Demand

/-- A library body that is loaded because a function followed calls it. -/
def Fetched (program library : Module) (name : String) : Prop :=
  ∃ root, Follows program library root .library name

/-- A stored body of the program that is loaded because a function followed calls it. -/
def Woken (program library : Module) (name : String) : Prop :=
  program.stores name = true ∧
    ∃ root caller, Follows program library root .program caller ∧ name ∈ program.callees caller

/-- A root is a function of the program. -/
theorem Follows.root_mem {program library : Module} {root name : String} {side : Side}
    (h : Follows program library root side name) : root ∈ program.functions.map Func.name := by
  induction h with
  | root hthere _ => exact Module.isSome_func?_iff.1 hthere
  | call _ _ _ _ _ ih => exact ih

namespace Demand

variable {program library : Module} {d : Demand}

section Walk

variable (hnames : program.DistinctNames)
  (hs : (Demand.start program library).walk (program.functions.map Func.name) = .ok d)

include hnames hs

/-- At the end every root has had its turn and no request is left. -/
theorem Tracked.of_walk :
    Tracked program library (program.functions.map Func.name) [] d [] := by
  have horder : program.functions.map Func.name = [] ++ program.functions.map Func.name := rfl
  exact Tracked.walk hnames horder (Tracked.start program library) hs

/-- Of the library's stored bodies, those are left that were not fetched. -/
theorem stores_library_iff (name : String) :
    d.library.stores name = true ↔ library.stores name = true ∧ ¬ Fetched program library name := by
  have h := Tracked.of_walk hnames hs
  constructor
  · intro hstores
    refine ⟨(h.opens .library).stored name hstores, ?_⟩
    rintro ⟨root, hfollows⟩
    have hloaded := (h.finished root hfollows.root_mem _ _ hfollows).2
    rw [show d.library.stores name = false from hloaded] at hstores
    cases hstores
  · rintro ⟨hstores, hnot⟩
    by_contra hloaded
    rw [Bool.not_eq_true] at hloaded
    obtain ⟨_, root, _, from', caller, hcaller, hcall, hprovider⟩ :=
      h.called .library name hstores hloaded
    exact hnot ⟨root, .call hcaller hcall hprovider hstores nofun⟩

/-- Of the program's stored bodies, those are left that no function followed calls. -/
theorem stores_program_iff (name : String) :
    d.program.stores name = true ↔ program.stores name = true ∧ ¬ Woken program library name := by
  have h := Tracked.of_walk hnames hs
  constructor
  · intro hstores
    have hstart := (h.opens .program).stored name hstores
    refine ⟨hstart, ?_⟩
    rintro ⟨_, root, caller, hcaller, hcall⟩
    have hbegun : ∃ root ∈ program.functions.map Func.name ++ [],
        Follows program library root .program caller :=
      ⟨root, List.mem_append_left _ hcaller.root_mem, hcaller⟩
    have hprovider : (start program library).provider? .program name = some .program :=
      if_pos (Module.defines_of_stores hstart)
    have hv := (h.finished root hcaller.root_mem _ _ hcaller).1
    rcases h.served .program caller hv hbegun name hcall .program
      hprovider with hloaded | ⟨r, hr, _⟩
    · rw [show d.program.stores name = false from hloaded] at hstores
      cases hstores
    · cases hr
  · rintro ⟨hstores, hnot⟩
    by_contra hloaded
    rw [Bool.not_eq_true] at hloaded
    obtain ⟨_, root, _, from', caller, hcaller, hcall, hprovider⟩ :=
      h.called .program name hstores hloaded
    cases from' with
    | program => exact hnot ⟨hstores, root, caller, hcaller, hcall⟩
    | library =>
        unfold provider? at hprovider
        split at hprovider
        · cases hprovider
        · split at hprovider
          · cases hprovider
          · cases hprovider

end Walk

end Demand

end Postlink
