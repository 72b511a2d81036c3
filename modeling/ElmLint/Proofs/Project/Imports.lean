import ElmLint.Project.Resolve
import Mathlib.Data.List.Induction

/-!
# What a file sees

Resolving goes through the imports in their order, and every import may add a module and may take a
qualifier over. What comes out needs no order but this: a module lives under the first source
directory that has its file, and a qualifier belongs to the last import that introduces it.
`IsResolved` says so, and holds after every import.
-/

namespace ElmLint

open Syntax (Import)

variable {sourceDirs : List FileUri} {has : FileUri → Bool} {imports : List Import} {i : Import}
  {r : ResolvedModules} {module qualifier : String} {uri : FileUri}

-- ---------------------------------------------------------------------------
-- Places of modules
-- ---------------------------------------------------------------------------

/-- Every file sees the module without importing it. -/
def IsVirtual (module : String) : Prop := ∃ qualifier, (module, qualifier) ∈ virtualImports

/-- Some source directory has the file of the module. -/
def IsFound (sourceDirs : List FileUri) (has : FileUri → Bool) (module : String) : Prop :=
  ∃ dir ∈ sourceDirs, has (dir.join (modulePath module)) = true

/-- The file is that of the module under the first source directory that has it. -/
def LivesAt (sourceDirs : List FileUri) (has : FileUri → Bool) (module : String)
    (uri : FileUri) : Prop :=
  ∃ before dir after, sourceDirs = before ++ dir :: after ∧
    uri = dir.join (modulePath module) ∧ has uri = true ∧
    ∀ other ∈ before, has (other.join (modulePath module)) = false

theorem locate?_eq_some_iff : locate? sourceDirs has module = some uri ↔
    LivesAt sourceDirs has module uri := by
  rw [locate?, List.find?_eq_some_iff_append]
  constructor
  · rintro ⟨hhas, front, back, hsplit, hfront⟩
    obtain ⟨before, rest, rfl, rfl, hrest⟩ := List.map_eq_append_iff.mp hsplit
    obtain ⟨dir, after, rfl, rfl, -⟩ := List.map_eq_cons_iff.mp hrest
    exact ⟨before, dir, after, rfl, rfl, hhas, by simpa using hfront⟩
  · rintro ⟨before, dir, after, rfl, rfl, hhas, hbefore⟩
    exact ⟨hhas, before.map (·.join (modulePath module)), after.map (·.join (modulePath module)),
      by simp, by simpa using hbefore⟩

theorem locate?_eq_none_iff :
    locate? sourceDirs has module = none ↔ ¬ IsFound sourceDirs has module := by
  simp [locate?, IsFound]

theorem isSome_locate?_iff :
    (locate? sourceDirs has module).isSome = true ↔ IsFound sourceDirs has module := by
  simp [locate?, IsFound]

theorem LivesAt.isFound (h : LivesAt sourceDirs has module uri) :
    IsFound sourceDirs has module := by
  obtain ⟨before, dir, after, rfl, rfl, hhas, -⟩ := h
  exact ⟨dir, by simp, hhas⟩

-- ---------------------------------------------------------------------------
-- What resolving comes to
-- ---------------------------------------------------------------------------

/-- The module is there without being imported, or one of the imports names it. -/
def IsNamed (imports : List Import) (module : String) : Prop :=
  IsVirtual module ∨ ∃ i ∈ imports, i.module? = some module

/-- The import makes the qualifier stand for the module. Where the project has the module this is
its alias, or else its name; a virtual module keeps the qualifier that it has, so that only an alias
is something new. -/
def Introduces (sourceDirs : List FileUri) (has : FileUri → Bool) (i : Import)
    (qualifier module : String) : Prop :=
  i.module? = some module ∧
    (IsFound sourceDirs has module ∧ i.qualifier? = some qualifier ∨
      ¬ IsFound sourceDirs has module ∧ IsVirtual module ∧ i.alias? = some qualifier)

structure IsResolved (sourceDirs : List FileUri) (has : FileUri → Bool) (imports : List Import)
    (r : ResolvedModules) : Prop where
  /-- The modules that can be seen are the virtual ones and those imported ones that are found. -/
  isSome_target?_iff : ∀ module, (r.target? module).isSome = true ↔
    IsVirtual module ∨ (∃ i ∈ imports, i.module? = some module) ∧ IsFound sourceDirs has module
  target?_file_iff : ∀ module uri, r.target? module = some (.file uri) ↔
    IsNamed imports module ∧ LivesAt sourceDirs has module uri
  target?_virtual_iff : ∀ module, r.target? module = some .virtual ↔
    IsVirtual module ∧ ¬ IsFound sourceDirs has module
  /-- A qualifier belongs to the last import that introduces it, or else to its virtual module. -/
  moduleOf?_iff : ∀ qualifier module, r.moduleOf? qualifier = some module ↔
    (∃ before i after, imports = before ++ i :: after ∧
      Introduces sourceDirs has i qualifier module ∧
      ∀ later ∈ after, ∀ other, ¬ Introduces sourceDirs has later qualifier other) ∨
    (module, qualifier) ∈ virtualImports ∧
      ∀ i ∈ imports, ∀ other, ¬ Introduces sourceDirs has i qualifier other
  isSome_target?_of_moduleOf? : ∀ qualifier module, r.moduleOf? qualifier = some module →
    (r.target? module).isSome = true

-- ---------------------------------------------------------------------------
-- Virtual modules
-- ---------------------------------------------------------------------------

namespace ResolvedModules

theorem target?_add (r : ResolvedModules) (module qualifier : String) (target : ModuleTarget)
    (other : String) : (r.add module qualifier target).target? other =
      if other = module then some target else r.target? other := Table.get?_put ..

theorem moduleOf?_qualify (r : ResolvedModules) (qualifier module other : String) :
    (r.qualify qualifier module).moduleOf? other =
      if other = qualifier then some module else r.moduleOf? other := Table.get?_put ..

theorem moduleOf?_add (r : ResolvedModules) (module qualifier : String) (target : ModuleTarget)
    (other : String) : (r.add module qualifier target).moduleOf? other =
      if other = qualifier then some module else r.moduleOf? other := Table.get?_put ..

end ResolvedModules

open ResolvedModules (target?_add moduleOf?_qualify moduleOf?_add)

def virtualTarget (sourceDirs : List FileUri) (has : FileUri → Bool) (module : String) :
    ModuleTarget :=
  match locate? sourceDirs has module with
  | some uri => .file uri
  | none => .virtual

/-- Adding modules with different qualifiers. -/
theorem resolve_pairs (target : String → ModuleTarget) (pairs : List (String × String))
    (hqualifiers : (pairs.map (·.2)).Nodup) :
    let r := pairs.foldl (fun r (module, qualifier) => r.add module qualifier (target module))
      ResolvedModules.none
    (∀ module, r.target? module =
      if module ∈ pairs.map (·.1) then some (target module) else none) ∧
    ∀ qualifier module, r.moduleOf? qualifier = some module ↔ (module, qualifier) ∈ pairs := by
  induction pairs using List.reverseRecOn with
  | nil => exact ⟨fun _ => rfl, by simp [ResolvedModules.moduleOf?, ResolvedModules.none]⟩
  | append_singleton pairs pair ih =>
    obtain ⟨module₀, qualifier₀⟩ := pair
    rw [List.map_append, List.nodup_append] at hqualifiers
    obtain ⟨hnodup, -, hnew⟩ := hqualifiers
    obtain ⟨htarget, hmoduleOf⟩ := ih hnodup
    rw [List.foldl_append, List.foldl_cons, List.foldl_nil]
    refine ⟨fun module => ?_, fun qualifier module => ?_⟩
    · rw [target?_add, htarget]
      by_cases h : module = module₀
      · simp [h]
      · simp only [List.map_append, List.map_cons, List.map_nil, List.mem_append,
          List.mem_singleton, h, or_false, if_false]
    · rw [moduleOf?_add]
      by_cases h : qualifier = qualifier₀
      · subst h
        have hnone : (module, qualifier) ∉ pairs := fun hmem =>
          hnew qualifier (List.mem_map.mpr ⟨_, hmem, rfl⟩) qualifier (by simp) rfl
        simp [hnone, eq_comm]
      · rw [if_neg h, hmoduleOf]
        simp [h]

theorem isResolved_virtual (sourceDirs : List FileUri) (has : FileUri → Bool) :
    IsResolved sourceDirs has [] (resolveVirtual sourceDirs has) := by
  obtain ⟨htarget, hmoduleOf⟩ := resolve_pairs (virtualTarget sourceDirs has) virtualImports
    (by decide)
  have hvirtual (module : String) :
      module ∈ virtualImports.map (·.1) ↔ IsVirtual module := by simp [IsVirtual]
  have htarget (module : String) : (resolveVirtual sourceDirs has).target? module =
      if module ∈ virtualImports.map (·.1) then some (virtualTarget sourceDirs has module)
      else none := htarget module
  have hmoduleOf (qualifier module : String) :
      (resolveVirtual sourceDirs has).moduleOf? qualifier = some module ↔
        (module, qualifier) ∈ virtualImports := hmoduleOf qualifier module
  constructor
  case isSome_target?_iff =>
    intro module
    rw [htarget, ← hvirtual]
    split <;> simp_all
  case target?_file_iff =>
    intro module uri
    rw [htarget, ← locate?_eq_some_iff, IsNamed, ← hvirtual, virtualTarget]
    cases locate? sourceDirs has module <;> simp
  case target?_virtual_iff =>
    intro module
    rw [htarget, ← locate?_eq_none_iff, ← hvirtual, virtualTarget]
    cases locate? sourceDirs has module <;> simp
  case moduleOf?_iff =>
    intro qualifier module
    simp [hmoduleOf]
  case isSome_target?_of_moduleOf? =>
    intro qualifier module h
    rw [hmoduleOf] at h
    rw [htarget, if_pos ((hvirtual module).mpr ⟨qualifier, h⟩)]
    rfl

-- ---------------------------------------------------------------------------
-- One more import
-- ---------------------------------------------------------------------------

/-- What an import does to the modules. -/
theorem target?_resolveImport (r : ResolvedModules) (i : Import) (module : String) :
    (resolveImport sourceDirs has r i).target? module =
      if i.module? = some module ∧ (locate? sourceDirs has module).isSome = true then
        (locate? sourceDirs has module).map .file
      else r.target? module := by
  unfold resolveImport
  split
  case h_1 hmodule => simp [hmodule]
  case h_2 module₀ hmodule =>
    have hneg (hlocate : locate? sourceDirs has module₀ = none) :
        ¬ (i.module? = some module ∧ (locate? sourceDirs has module).isSome = true) := by
      rintro ⟨hmodule', hfound⟩
      obtain rfl := Option.some.inj (hmodule.symm.trans hmodule')
      rw [hlocate] at hfound
      cases hfound
    split
    case h_1 huri =>
      rw [target?_add, hmodule]
      by_cases heq : module = module₀
      · subst heq
        simp [huri]
      · simp [heq, Ne.symm heq]
    case h_2 hlocate _ =>
      rw [if_neg (hneg hlocate)]
      split <;> rfl
    case h_3 hlocate _ => rw [if_neg (hneg hlocate)]

namespace IsResolved

variable (h : IsResolved sourceDirs has imports r)
include h

/-- A module that is found nowhere can be seen if and only if it is virtual. -/
theorem isSome_target?_of_not_isFound (hfound : ¬ IsFound sourceDirs has module) :
    (r.target? module).isSome = true ↔ IsVirtual module := by
  rw [h.isSome_target?_iff]
  simp [hfound]

/-- What an import does to the qualifiers. -/
theorem moduleOf?_resolveImport (i : Import) (qualifier module : String) :
    (resolveImport sourceDirs has r i).moduleOf? qualifier = some module ↔
      Introduces sourceDirs has i qualifier module ∨
        (∀ other, ¬ Introduces sourceDirs has i qualifier other) ∧
          r.moduleOf? qualifier = some module := by
  unfold resolveImport
  split
  case h_1 hmodule => simp [Introduces, hmodule]
  case h_2 module₀ hmodule =>
    have hqualifier : i.qualifier? = some (i.alias?.getD module₀) := by
      rw [Import.qualifier?, hmodule]
      cases i.alias? <;> rfl
    split
    case h_1 huri =>
      have hfound : IsFound sourceDirs has module₀ := (locate?_eq_some_iff.mp huri).isFound
      have hintroduces (qualifier module : String) :
          Introduces sourceDirs has i qualifier module ↔
            module = module₀ ∧ qualifier = i.alias?.getD module₀ := by
        rw [Introduces, hmodule, hqualifier]
        constructor
        · rintro ⟨heq, ⟨-, hq⟩ | ⟨hnot, -⟩⟩
          · exact ⟨(Option.some.inj heq).symm, (Option.some.inj hq).symm⟩
          · exact absurd (Option.some.inj heq ▸ hfound) hnot
        · rintro ⟨rfl, rfl⟩
          exact ⟨rfl, .inl ⟨hfound, rfl⟩⟩
      rw [moduleOf?_add]
      by_cases heq : qualifier = i.alias?.getD module₀
      · simp [hintroduces, heq, eq_comm]
      · simp [hintroduces, heq]
    case h_2 name hlocate halias =>
      have hfound := locate?_eq_none_iff.mp hlocate
      have hintroduces (qualifier module : String) :
          Introduces sourceDirs has i qualifier module ↔
            (module = module₀ ∧ qualifier = name) ∧ IsVirtual module₀ := by
        rw [Introduces, hmodule, halias]
        constructor
        · rintro ⟨heq, ⟨hfound', -⟩ | ⟨-, hvirtual, hq⟩⟩
          · exact absurd (Option.some.inj heq ▸ hfound') hfound
          · obtain rfl := Option.some.inj heq
            exact ⟨⟨rfl, (Option.some.inj hq).symm⟩, hvirtual⟩
        · rintro ⟨⟨rfl, rfl⟩, hvirtual⟩
          exact ⟨rfl, .inr ⟨hfound, hvirtual, rfl⟩⟩
      by_cases hvirtual : IsVirtual module₀
      · rw [if_pos ((h.isSome_target?_of_not_isFound hfound).mpr hvirtual), moduleOf?_qualify]
        by_cases heq : qualifier = name
        · simp [hintroduces, heq, hvirtual, eq_comm]
        · simp [hintroduces, heq]
      · rw [if_neg (mt (h.isSome_target?_of_not_isFound hfound).mp hvirtual)]
        simp [hintroduces, hvirtual]
    case h_3 hlocate halias =>
      have hfound := locate?_eq_none_iff.mp hlocate
      have hintroduces (qualifier module : String) :
          ¬ Introduces sourceDirs has i qualifier module := by
        rintro ⟨heq, ⟨hfound', -⟩ | ⟨-, -, hq⟩⟩
        · obtain rfl := Option.some.inj (hmodule.symm.trans heq)
          exact hfound hfound'
        · rw [halias] at hq
          cases hq
      simp [hintroduces]

theorem resolveImport (i : Import) :
    IsResolved sourceDirs has (imports ++ [i]) (resolveImport sourceDirs has r i) := by
  have htarget (module : String) :
      (ElmLint.resolveImport sourceDirs has r i).target? module =
        if i.module? = some module ∧ (locate? sourceDirs has module).isSome = true then
          (locate? sourceDirs has module).map .file
        else r.target? module := target?_resolveImport r i module
  have hfile (module : String) (uri : FileUri) :
      (ElmLint.resolveImport sourceDirs has r i).target? module = some (.file uri) ↔
        IsNamed (imports ++ [i]) module ∧ LivesAt sourceDirs has module uri := by
    rw [htarget]
    split
    · rename_i hnew
      simp [← locate?_eq_some_iff, IsNamed, hnew.1]
    · rename_i hold
      rw [h.target?_file_iff]
      refine and_congr_left fun hlives => ?_
      have hother : ¬ i.module? = some module := fun hmodule =>
        hold ⟨hmodule, isSome_locate?_iff.mpr hlives.isFound⟩
      simp [IsNamed, hother]
  have hvirtual (module : String) :
      (ElmLint.resolveImport sourceDirs has r i).target? module = some .virtual ↔
        IsVirtual module ∧ ¬ IsFound sourceDirs has module := by
    rw [htarget]
    split
    · rename_i hnew
      obtain ⟨uri, huri⟩ := Option.isSome_iff_exists.mp hnew.2
      simp [← locate?_eq_none_iff, huri]
    · exact h.target?_virtual_iff module
  have hsome (module : String) :
      ((ElmLint.resolveImport sourceDirs has r i).target? module).isSome = true ↔
        IsVirtual module ∨ (∃ i' ∈ imports ++ [i], i'.module? = some module) ∧
          IsFound sourceDirs has module := by
    rw [htarget]
    split
    · rename_i hnew
      simp [hnew.1, hnew.2, ← isSome_locate?_iff]
    · rename_i hold
      rw [h.isSome_target?_iff]
      refine or_congr_right (and_congr_left fun hfound => ?_)
      have hother : ¬ i.module? = some module := fun hmodule =>
        hold ⟨hmodule, isSome_locate?_iff.mpr hfound⟩
      simp [hother]
  refine ⟨hsome, hfile, hvirtual, fun qualifier module => ?_, fun qualifier module hq => ?_⟩
  · rw [h.moduleOf?_resolveImport, h.moduleOf?_iff]
    constructor
    · rintro (hlast | ⟨hnot, ⟨before, first, after, rfl, hfirst, hafter⟩ | ⟨hpair, hnone⟩⟩)
      · exact .inl ⟨imports, i, [], rfl, hlast, nofun⟩
      · refine .inl ⟨before, first, after ++ [i], by simp, hfirst, ?_⟩
        exact List.forall_mem_append.mpr ⟨hafter, List.forall_mem_singleton.mpr hnot⟩
      · exact .inr ⟨hpair, List.forall_mem_append.mpr ⟨hnone, List.forall_mem_singleton.mpr hnot⟩⟩
    · rintro (⟨before, first, after, hsplit, hfirst, hafter⟩ | ⟨hpair, hnone⟩)
      · cases after using List.reverseRecOn with
        | nil =>
          obtain ⟨-, hlast⟩ := List.append_inj' hsplit rfl
          obtain rfl := List.singleton_inj.mp hlast
          exact .inl hfirst
        | append_singleton after last =>
          rw [← List.cons_append, ← List.append_assoc] at hsplit
          obtain ⟨rfl, hlast⟩ := List.append_inj' hsplit rfl
          obtain rfl := List.singleton_inj.mp hlast
          obtain ⟨hafter, hnot⟩ := List.forall_mem_append.mp hafter
          exact .inr ⟨hnot i List.mem_cons_self, .inl ⟨before, first, after, rfl, hfirst, hafter⟩⟩
      · obtain ⟨hnone, hnot⟩ := List.forall_mem_append.mp hnone
        exact .inr ⟨hnot i List.mem_cons_self, .inr ⟨hpair, hnone⟩⟩
  · rw [hsome]
    obtain ⟨hmodule, ⟨hfound, -⟩ | ⟨-, hvirtual, -⟩⟩ | ⟨-, hold⟩ :=
      (h.moduleOf?_resolveImport i qualifier module).mp hq
    · exact .inr ⟨⟨i, by simp, hmodule⟩, hfound⟩
    · exact .inl hvirtual
    · have hseen := (h.isSome_target?_iff module).mp (h.isSome_target?_of_moduleOf? _ _ hold)
      refine hseen.imp id fun ⟨⟨i', hmem, hmodule⟩, hfound⟩ => ⟨⟨i', ?_, hmodule⟩, hfound⟩
      exact List.mem_append_left _ hmem

end IsResolved

/-- Whatever a file imports, the modules that it sees are the virtual ones and those imported ones
whose file is under a source directory, each at the first such directory; a qualifier stands for the
module of the last import that introduces it, or else for its virtual module; and what a qualifier
stands for can be seen. -/
theorem resolveImports_isResolved (sourceDirs : List FileUri) (has : FileUri → Bool)
    (imports : List Import) :
    IsResolved sourceDirs has imports (resolveImports sourceDirs has imports) := by
  induction imports using List.reverseRecOn with
  | nil => exact isResolved_virtual sourceDirs has
  | append_singleton imports i ih =>
    rw [resolveImports, List.foldl_append, List.foldl_cons, List.foldl_nil]
    exact ih.resolveImport i

end ElmLint
