import Postlink.Demand.Basic

/-!
# Walking the call graph

The walk starts at every function of the program and goes depth first. Each step down loads a body
(`storedTotal_supply`), so it goes at most as deep as there are stored bodies, and a larger bound
changes nothing (`serveTo_eq_serve`). As a list of things to do, a walk puts the calls of a body
just loaded in front (`serve_cons`).
-/

namespace Postlink

namespace Demand

/-- The number of bodies still stored in either module. -/
def storedTotal (d : Demand) : Nat := d.program.storedCount + d.library.storedCount

/-- Changing a function without touching whether it is stored keeps the number of stored bodies. -/
theorem storedTotal_modifyFunc_of_eq {side : Side} {name : String} {f g : Func} {d : Demand}
    (hf : (d.module side).func? name = some f) (h : g.isStored = f.isStored) :
    (d.modifyFunc side name fun _ => g).storedTotal = d.storedTotal := by
  have key : ∀ m : Module, m.func? name = some f →
      (m.modifyFunc name fun _ => g).storedCount = m.storedCount := by
    intro m hm
    exact countP_modifyFirst_const hm h
  cases side with
  | program => simp only [modifyFunc, storedTotal, key d.program hf]
  | library => simp only [modifyFunc, storedTotal, key d.library hf]

/-- Replacing a stored function by a loaded one leaves fewer stored bodies. -/
theorem storedTotal_modifyFunc_lt {side : Side} {name : String} {f g : Func} {d : Demand}
    (hf : (d.module side).func? name = some f) (hs : f.isStored = true) (hg : g.isStored = false) :
    (d.modifyFunc side name fun _ => g).storedTotal < d.storedTotal := by
  have key : ∀ m : Module, m.func? name = some f →
      (m.modifyFunc name fun _ => g).storedCount < m.storedCount := by
    intro m hm
    exact countP_modifyFirst_lt hm hs hg
  cases side with
  | program =>
      have := key d.program hf
      simp only [modifyFunc, storedTotal]
      omega
  | library =>
      have := key d.library hf
      simp only [modifyFunc, storedTotal]
      omega

/-- Following calls loads nothing. -/
theorem storedTotal_visit (side : Side) (name : String) (d : Demand) :
    (d.visit side name).1.storedTotal = d.storedTotal := by
  unfold visit
  split
  · rfl
  · dsimp only
    split
    · rfl
    · rename_i f hf
      have same : f.adoptConvention.isStored = f.isStored := Func.isStored_mapInstrs _ f
      exact storedTotal_modifyFunc_of_eq hf same

/-- Serving a request that needs something leaves fewer stored bodies. -/
theorem storedTotal_supply {d d' : Demand} {r : Request} {more : List Request}
    (h : d.supply r = .ok (some (d', more))) : d'.storedTotal < d.storedTotal := by
  unfold supply at h
  split at h
  · cases h
  · rename_i side f hm
    split at h
    · cases h
    · rename_i g hg
      have found : (d.module side).func? r.callee = some f ∧ f.isStored = true := by
        unfold missing? at hm
        split at hm
        · cases hm
        · split at hm
          · cases hm
          · split at hm
            · cases hm; exact ⟨by assumption, by assumption⟩
            · cases hm
      have loaded : Func.isStored { g with conv := r.conv } = false := by
        have := Func.isStored_load hg
        exact this
      have hd := storedTotal_modifyFunc_lt found.1 found.2 loaded
      have hv := storedTotal_visit side r.callee
        { (d.modifyFunc side r.callee fun _ => { g with conv := r.conv }) with
          loaded := (d.modifyFunc side r.callee fun _ => { g with conv := r.conv }).loaded + 1 }
      simp only [Except.ok.injEq, Option.some.injEq] at h
      rw [h] at hv
      exact Nat.lt_of_le_of_lt (Nat.le_of_eq hv) hd

/-- Serve requests in order, and those of each body just loaded by `deeper`. -/
def serveWith (deeper : Demand → List Request → Except Fault Demand) (d : Demand) :
    List Request → Except Fault Demand
  | [] => .ok d
  | r :: rest =>
      match d.supply r with
      | .error e => .error e
      | .ok none => serveWith deeper d rest
      | .ok (some (d', more)) =>
          match deeper d' more with
          | .error e => .error e
          | .ok d => serveWith deeper d rest

/-- Serve requests down to a depth. -/
def serveTo : Nat → Demand → List Request → Except Fault Demand
  | 0 => serveWith fun d _ => .ok d
  | n + 1 => serveWith (serveTo n)

/-- Serve requests and all that they lead to. -/
def serve (d : Demand) (requests : List Request) : Except Fault Demand :=
  serveTo d.storedTotal d requests

/-- Serving never adds a stored body if going deeper does not. -/
theorem storedTotal_serveWith {deeper : Demand → List Request → Except Fault Demand}
    (hdeeper : ∀ d rs e, deeper d rs = .ok e → e.storedTotal ≤ d.storedTotal)
    {d e : Demand} {rs : List Request} (h : serveWith deeper d rs = .ok e) :
    e.storedTotal ≤ d.storedTotal := by
  induction rs generalizing d with
  | nil =>
      cases h
      exact Nat.le_refl _
  | cons r rest ih =>
      simp only [serveWith] at h
      split at h
      · cases h
      · exact ih h
      · rename_i d' more hs
        split at h
        · cases h
        · rename_i d'' hd
          have h1 := storedTotal_supply hs
          have h2 := hdeeper d' more d'' hd
          have h3 := ih h
          omega

/-- Serving never adds a stored body. -/
theorem storedTotal_serveTo {n : Nat} {d e : Demand} {rs : List Request}
    (h : serveTo n d rs = .ok e) : e.storedTotal ≤ d.storedTotal := by
  induction n generalizing d e rs with
  | zero =>
      refine storedTotal_serveWith (fun d _ e hd => ?_) h
      cases hd
      exact Nat.le_refl _
  | succ n ih => exact storedTotal_serveWith (fun _ _ _ hd => ih hd) h

/-- Serving depends on `deeper` only where fewer bodies are stored. -/
theorem serveWith_congr {f g : Demand → List Request → Except Fault Demand}
    (hf : ∀ d rs e, f d rs = .ok e → e.storedTotal ≤ d.storedTotal) {n : Nat} {d : Demand}
    {rs : List Request} (hfg : ∀ d rs, d.storedTotal < n → f d rs = g d rs)
    (hd : d.storedTotal ≤ n) : serveWith f d rs = serveWith g d rs := by
  induction rs generalizing d with
  | nil => rfl
  | cons r rest ih =>
      simp only [serveWith]
      split
      · rfl
      · exact ih hd
      · rename_i d' more hs
        have h1 := storedTotal_supply hs
        rw [← hfg d' more (by omega)]
        split
        · rfl
        · rename_i d'' hd''
          have h2 := hf d' more d'' hd''
          exact ih (by omega)

/-- A depth that the stored bodies cannot exceed makes no difference. -/
theorem serveTo_eq_serveTo {n k : Nat} {d : Demand} {rs : List Request} (hn : d.storedTotal ≤ n)
    (hk : d.storedTotal ≤ k) : serveTo n d rs = serveTo k d rs := by
  induction n generalizing k d rs with
  | zero =>
      have mono : ∀ (d : Demand) (_ : List Request) (e : Demand),
          (Except.ok d : Except Fault Demand) = .ok e → e.storedTotal ≤ d.storedTotal := by
        intro d _ e hd
        cases hd
        exact Nat.le_refl _
      cases k with
      | zero => rfl
      | succ k =>
          exact serveWith_congr mono (fun _ _ h => absurd h (Nat.not_lt_zero _)) hn
  | succ n ih =>
      cases k with
      | zero =>
          exact serveWith_congr (fun _ _ _ => storedTotal_serveTo)
            (fun _ _ h => absurd h (Nat.not_lt_zero _)) hk
      | succ k =>
          have hm : d.storedTotal ≤ min (n + 1) (k + 1) := by omega
          exact serveWith_congr (fun _ _ _ => storedTotal_serveTo)
            (fun d rs h => ih (by omega) (by omega)) hm

/-- A bound on the depth that is large enough makes no difference. -/
theorem serveTo_eq_serve {n : Nat} {d : Demand} {rs : List Request} (h : d.storedTotal ≤ n) :
    serveTo n d rs = serve d rs :=
  serveTo_eq_serveTo h (Nat.le_refl _)

/-- Serving never adds a stored body. -/
theorem storedTotal_serve {d e : Demand} {rs : List Request} (h : d.serve rs = .ok e) :
    e.storedTotal ≤ d.storedTotal :=
  storedTotal_serveTo h

@[simp] theorem serve_nil (d : Demand) : d.serve [] = .ok d := by
  unfold serve
  cases d.storedTotal <;> rfl

/-- The first request is served with all that it leads to before the others. -/
theorem serve_cons_eq_bind (d : Demand) (r : Request) (rest : List Request) :
    d.serve (r :: rest) =
      match d.supply r with
      | .error e => .error e
      | .ok none => d.serve rest
      | .ok (some (d', more)) =>
          match d'.serve more with
          | .error e => .error e
          | .ok d => d.serve rest := by
  rw [← serveTo_eq_serve (Nat.le_succ d.storedTotal)]
  simp only [serveTo, serveWith]
  split
  · rfl
  · exact serveTo_eq_serve (Nat.le_succ d.storedTotal)
  · rename_i d' more hs
    have h1 := storedTotal_supply hs
    rw [serveTo_eq_serve (Nat.le_of_lt h1)]
    split
    · rfl
    · rename_i d'' hd
      have h2 := storedTotal_serve hd
      exact serveTo_eq_serve (n := d.storedTotal + 1) (by omega)

/-- Requests are served one list after the other. -/
theorem serve_append (d : Demand) (rs ss : List Request) :
    d.serve (rs ++ ss) =
      match d.serve rs with
      | .error e => .error e
      | .ok d => d.serve ss := by
  induction rs generalizing d with
  | nil => simp
  | cons r rs ih =>
      rw [List.cons_append, serve_cons_eq_bind, serve_cons_eq_bind]
      split
      · rfl
      · exact ih d
      · split
        · rfl
        · exact ih _

/-- The calls of a body just loaded go in front of the requests that are left. -/
theorem serve_cons (d : Demand) (r : Request) (rest : List Request) :
    d.serve (r :: rest) =
      match d.supply r with
      | .error e => .error e
      | .ok none => d.serve rest
      | .ok (some (d', more)) => d'.serve (more ++ rest) := by
  rw [serve_cons_eq_bind]
  split
  · rfl
  · rfl
  · rw [serve_append]

/-- Walk the call graph from each of the named functions of the program. -/
def walk (d : Demand) : List String → Except Fault Demand
  | [] => .ok d
  | root :: roots =>
      match serve (d.visit .program root).1 (d.visit .program root).2 with
      | .error e => .error e
      | .ok d => walk d roots

end Demand

end Postlink
