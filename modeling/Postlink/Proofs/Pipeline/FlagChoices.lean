import Postlink.Pipeline
import Postlink.Proofs.Pipeline.Orderly
import Mathlib.Data.List.DropRight

/-!
# Flags as they were last chosen

A configuration is made by choices, one after the other: to give a flag a value, to drop all flags,
or whether symbols become internal. What counts of them is the values given since flags were last
dropped (`Config.given`), to which the defaults belong if that never happened. The flags of the
configuration are those names in the order in which they were first given, each once, with the value
given last (`Flag.names_setAll`, `Flag.find?_setAll`). Setting them gives each variable of such a
name that value and changes nothing else (`Config.setFlags_after`).
-/

namespace Postlink

namespace Flag

/-- Set flags in order, from none on. -/
def setAll (given : List Flag) : List Flag :=
  given.foldl (fun flags f => set f.name f.value flags) []

theorem setAll_concat (given : List Flag) (f : Flag) :
    setAll (given ++ [f]) = set f.name f.value (setAll given) :=
  List.foldl_concat ..

variable (name : String) (value : FlagValue) (flags : List Flag)

/-- A flag that is there keeps its place, and a new one comes last. -/
theorem names_set : (set name value flags).map Flag.name =
    if name ∈ flags.map Flag.name then flags.map Flag.name else flags.map Flag.name ++ [name] := by
  have hany : (flags.any fun f => f.name = name) = true ↔ name ∈ flags.map Flag.name := by
    rw [List.any_eq_true, List.mem_map]
    simp only [decide_eq_true_eq]
  have hname : ∀ f : Flag, ({ f with value := value } : Flag).name = f.name := fun _ => rfl
  simp only [set, hany]
  split
  · exact map_modifyFirst hname flags
  · rw [List.map_append]
    rfl

/-- A flag that is set has the new value, and the others have theirs. -/
theorem find?_set (n : String) : (set name value flags).find? (fun f => f.name = n) =
    if name = n then some ⟨name, value⟩ else flags.find? fun f => f.name = n := by
  unfold set
  split
  · rename_i hany
    induction flags with
    | nil => cases hany
    | cons f fs ih =>
        rw [modifyFirst]
        by_cases hf : f.name = name
        · rw [if_pos (decide_eq_true hf), List.find?_cons, List.find?_cons]
          by_cases hn : name = n <;> simp [hf, hn]
        · rw [List.any_cons, decide_eq_false hf, Bool.false_or] at hany
          rw [if_neg (by simpa using hf), List.find?_cons, List.find?_cons, ih hany]
          by_cases hn : name = n
          · have hne : f.name ≠ n := fun h => hf (h.trans hn.symm)
            simp [hn, hne]
          · simp [hn]
  · rename_i hany
    rw [List.find?_append, List.find?_singleton]
    by_cases hn : name = n
    · have hnone : flags.find? (fun f => f.name = n) = none := by
        rw [List.find?_eq_none]
        intro f hf hname
        refine hany (List.any_eq_true.2 ⟨f, hf, ?_⟩)
        rwa [hn]
      simp [hn, hnone]
    · simp [hn]

/-- Names stand in the order in which they were first given, each once. -/
theorem names_setAll (given : List Flag) :
    (setAll given).map Flag.name = (given.map Flag.name).eraseDups := by
  induction given using List.reverseRecOn with
  | nil => rfl
  | append_singleton given f ih =>
      rw [setAll_concat, names_set, ih, List.map_append, List.eraseDups_append]
      simp only [List.mem_eraseDups, List.map_singleton, List.removeAll, List.filter_cons,
        List.filter_nil]
      by_cases hf : f.name ∈ given.map Flag.name
      · simp [hf]
      · simp [hf, List.eraseDups_cons]

/-- A flag has the value that it was given last. -/
theorem find?_setAll (given : List Flag) (n : String) :
    (setAll given).find? (fun f => f.name = n) = given.reverse.find? fun f => f.name = n := by
  induction given using List.reverseRecOn with
  | nil => rfl
  | append_singleton given f ih =>
      rw [setAll_concat, find?_set, ih, List.reverse_append, List.reverse_singleton,
        List.singleton_append, List.find?_cons]
      by_cases hf : f.name = n
      · rw [if_pos hf, decide_eq_true hf]
      · rw [if_neg hf, decide_eq_false hf]

end Flag

/-- The variable with the value of a flag, if there is one for it. -/
def Global.assign (value : Option FlagValue) (g : Global) : Global :=
  match value with
  | some v => { g with init := some (.int 32 v.bits.toNat) }
  | none => g

namespace Module

/-- Setting one flag changes the variable of its name. -/
theorem setFlag_fst {s : Module × Nat} (h : (s.1.globals.map Global.name).Nodup) (flag : Flag) :
    (setFlag s flag).1 =
      { s.1 with
        globals := s.1.globals.map fun g =>
          if g.name = flag.name then g.assign (some flag.value) else g } := by
  unfold setFlag
  split
  · rename_i hnone
    have hne : ∀ g ∈ s.1.globals, g.name ≠ flag.name := by
      simpa [global?, List.find?_eq_none] using hnone
    rw [map_ite_of_forall_ne hne]
  · exact congrArg (fun globals => { s.1 with globals := globals }) (modifyFirst_eq_map h)

/-- One flag counts if there is a variable of its name. -/
theorem setFlag_snd (s : Module × Nat) (flag : Flag) :
    (setFlag s flag).2 = s.2 + if flag.name ∈ s.1.globals.map Global.name then 1 else 0 := by
  have hsome : (s.1.global? flag.name).isSome = true ↔ flag.name ∈ s.1.globals.map Global.name := by
    rw [global?, List.find?_isSome, List.mem_map]
    simp only [decide_eq_true_eq]
  simp only [← hsome]
  unfold setFlag
  cases s.1.global? flag.name <;> rfl

/-- Flags with distinct names give each variable the value of the flag of its name. -/
theorem foldl_setFlag_fst {flags : List Flag} (hflags : (flags.map Flag.name).Nodup)
    {s : Module × Nat} (h : (s.1.globals.map Global.name).Nodup) :
    (flags.foldl setFlag s).1 =
      { s.1 with
        globals := s.1.globals.map fun g =>
          g.assign ((flags.find? fun f => f.name = g.name).map Flag.value) } := by
  induction flags generalizing s with
  | nil =>
      have hself : (s.1.globals.map fun g => g.assign none) = s.1.globals := List.map_id' _
      exact congrArg (fun globals => { s.1 with globals := globals }) hself.symm
  | cons flag flags ih =>
      rw [List.map_cons, List.nodup_cons] at hflags
      have hnames : ((setFlag s flag).1.globals.map Global.name).Nodup := by rwa [names_setFlag]
      rw [List.foldl_cons, ih hflags.2 hnames, setFlag_fst h, List.map_map]
      refine congrArg (fun globals => { s.1 with globals := globals }) ?_
      apply List.map_congr_left
      intro g _
      rw [Function.comp_apply, List.find?_cons]
      by_cases hg : g.name = flag.name
      · -- No later flag has the name, so the value stays.
        have hnone : flags.find? (fun f => f.name = g.name) = none := by
          rw [List.find?_eq_none]
          intro f hf hname
          refine hflags.1 ?_
          rw [← hg, ← of_decide_eq_true hname]
          exact List.mem_map_of_mem hf
        rw [if_pos hg, decide_eq_true hg.symm]
        exact congrArg (fun found => Global.assign (found.map Flag.value) _) hnone
      · rw [if_neg hg, decide_eq_false fun heq => hg heq.symm]

/-- As many flags are counted as have a variable of their name. -/
theorem foldl_setFlag_snd (flags : List Flag) (s : Module × Nat) : (flags.foldl setFlag s).2 =
    s.2 + flags.countP fun f => f.name ∈ s.1.globals.map Global.name := by
  induction flags generalizing s with
  | nil => rfl
  | cons flag flags ih =>
      rw [List.foldl_cons, ih, names_setFlag, setFlag_snd, List.countP_cons]
      simp only [decide_eq_true_eq]
      omega

/-- Where names are distinct, the flags that find a variable are as many as the variables that find
a flag. -/
theorem countP_flags {flags : List Flag} (hflags : (flags.map Flag.name).Nodup) {m : Module}
    (h : (m.globals.map Global.name).Nodup) :
    flags.countP (fun f => f.name ∈ m.globals.map Global.name) =
      m.globals.countP fun g => (flags.find? fun f => f.name = g.name).isSome := by
  have hfound : ∀ g ∈ m.globals, (decide (g.name ∈ flags.map Flag.name) = true ↔
      (flags.find? fun f => f.name = g.name).isSome = true) := by
    intro g _
    rw [decide_eq_true_eq, List.find?_isSome, List.mem_map]
    simp only [decide_eq_true_eq]
  calc flags.countP (fun f => f.name ∈ m.globals.map Global.name)
      = (flags.map Flag.name).countP fun n => n ∈ m.globals.map Global.name := by
        rw [List.countP_map]
        rfl
    _ = (m.globals.map Global.name).countP fun n => n ∈ flags.map Flag.name :=
        countP_mem_comm hflags h
    _ = m.globals.countP fun g => g.name ∈ flags.map Flag.name := by
        rw [List.countP_map]
        rfl
    _ = _ := List.countP_congr hfound

end Module

namespace Config

/-- Something that is chosen about a configuration. -/
inductive Choice where
  /-- A flag has a value. -/
  | flag (name : String) (value : FlagValue)
  /-- No flag is set. -/
  | noFlags
  /-- Whether symbols become internal. -/
  | internalize (enable : Bool)
  deriving DecidableEq

/-- The flag that is given, if the choice gives one. -/
def Choice.flag? : Choice → Option Flag
  | .flag name value => some ⟨name, value⟩
  | .noFlags => none
  | .internalize _ => none

/-- Make a choice. -/
def choose (c : Config) : Choice → Config
  | .flag name value => c.withFlag name value
  | .noFlags => c.withoutFlags
  | .internalize enable => c.withInternalize enable

/-- The configuration that choices lead to, from the standard one on. -/
def after (choices : List Choice) : Config := choices.foldl choose standard

/-- The flags given since they were last dropped, in order. The defaults are given at the start. -/
def given (choices : List Choice) : List Flag :=
  (if .noFlags ∈ choices then [] else Flag.defaults) ++
    (choices.rtakeWhile fun c => c ≠ .noFlags).filterMap Choice.flag?

/-- The value given last for a name. -/
def valueOf (choices : List Choice) (name : String) : Option FlagValue :=
  ((given choices).reverse.find? fun f => f.name = name).map Flag.value

/-- Dropping all flags forgets what was given before. -/
theorem given_noFlags (choices : List Choice) : given (choices ++ [.noFlags]) = [] := by
  simp [given]

/-- Every other choice is added to what was given before. -/
theorem given_concat (choices : List Choice) {c : Choice} (h : c ≠ .noFlags) :
    given (choices ++ [c]) = given choices ++ c.flag?.toList := by
  have hmem : .noFlags ∈ choices ++ [c] ↔ .noFlags ∈ choices := by
    rw [List.mem_append, List.mem_singleton, or_iff_left h.symm]
  simp only [given, hmem, List.rtakeWhile_concat, h, ne_eq, not_false_eq_true, decide_true, if_true,
    List.filterMap_append, List.append_assoc]
  cases c <;> rfl

/-- The flags of a configuration come from those that were given by setting them in order. -/
theorem flags_after (choices : List Choice) :
    (after choices).flags = Flag.setAll (given choices) := by
  induction choices using List.reverseRecOn with
  | nil => rfl
  | append_singleton choices c ih =>
      rw [after, List.foldl_concat, ← after]
      cases c with
      | noFlags =>
          rw [given_noFlags]
          rfl
      | flag name value =>
          rw [given_concat choices (by simp), Choice.flag?, Option.toList_some,
            Flag.setAll_concat, ← ih]
          rfl
      | internalize enable =>
          rw [given_concat choices (by simp), Choice.flag?, Option.toList_none,
            List.append_nil, ← ih]
          rfl

/-- Whatever was chosen, the flags have distinct names in the order in which they were first given
since flags were last dropped. Where variables have distinct names, setting the flags gives each
variable the value given last for its name, if there is one, as a 32-bit integer, changes nothing
else, and counts the variables that get one. -/
theorem setFlags_after {m : Module} (h : (m.globals.map Global.name).Nodup)
    (choices : List Choice) : ((after choices).flags.map Flag.name).Nodup ∧
    (after choices).flags.map Flag.name = ((given choices).map Flag.name).eraseDups ∧
    (m.setFlags (after choices).flags).1 =
      { m with globals := m.globals.map fun g => g.assign (valueOf choices g.name) } ∧
    (m.setFlags (after choices).flags).2 =
      m.globals.countP fun g => (valueOf choices g.name).isSome := by
  have hnames : (after choices).flags.map Flag.name =
      ((given choices).map Flag.name).eraseDups := by
    rw [flags_after, Flag.names_setAll]
  have hnodup : ((after choices).flags.map Flag.name).Nodup := hnames ▸ nodup_eraseDups _
  have hvalue : ∀ n, ((after choices).flags.find? fun f => f.name = n) =
      (given choices).reverse.find? fun f => f.name = n := by
    intro n
    rw [flags_after, Flag.find?_setAll]
  refine ⟨hnodup, hnames, ?_, ?_⟩
  · rw [Module.setFlags, Module.foldl_setFlag_fst hnodup h]
    simp only [hvalue, valueOf]
  · rw [Module.setFlags, Module.foldl_setFlag_snd, Module.countP_flags hnodup h, Nat.zero_add]
    simp only [hvalue, valueOf, Option.isSome_map]

/-- Variables for a default flag, for two other flags, and for none. -/
def panel : Module :=
  let word : Ty := .int 32
  ⟨"m", [⟨"__FlushDenormals", word, none, .external⟩, ⟨"a", word, some (.int 32 9), .internal⟩,
    ⟨"b", word, none, .external⟩, ⟨"c", word, some (.null word), .external⟩], []⟩

/-- A default is overridden and dropped with the others, and then one of two flags is given
twice. -/
def secondThoughts : List Choice :=
  [.flag "__FlushDenormals" (.int 7), .flag "c" (.int 1), .noFlags, .flag "b" (.float 0x3FC00000),
    .internalize false, .flag "a" (.float 0x40000000), .flag "b" (.int 3)]

/-- The flag that was given first stands first, with its second value. -/
theorem setFlags_after_secondThoughts :
    (panel.globals.map Global.name).Nodup ∧
    (after secondThoughts).flags.map Flag.name = ["b", "a"] ∧
    (panel.setFlags (after secondThoughts).flags).1 =
      { panel with
        globals := panel.globals.map fun g => g.assign (valueOf secondThoughts g.name) } ∧
    panel.globals.map (fun g => (g.assign (valueOf secondThoughts g.name)).init) =
      [none, some (.int 32 0x40000000), some (.int 32 3), some (.null (.int 32))] ∧
    (panel.setFlags (after secondThoughts).flags).2 = 2 := by
  have hglobals : (panel.globals.map Global.name).Nodup := by decide +kernel
  obtain ⟨_, hnames, hmodule, hcount⟩ := setFlags_after hglobals secondThoughts
  refine ⟨hglobals, hnames.trans ?_, hmodule, ?_, hcount.trans ?_⟩
  · decide +kernel
  · decide +kernel
  · decide +kernel

end Config

end Postlink
