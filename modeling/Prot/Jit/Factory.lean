import Prot.Jit.BackendRuns

/-!
# The factory of translators

`JitFactory` finds a translator by the name that the user gives. One of the names stands for
no translator, with which the engine only caches what it decodes. Two of the names stand for
the function that is built for LLVM, which has two compilers.

## Main results

* `exists_createTranslator_iff`: the names that are accepted
* `translates_of_createTranslator`: what is created for them
-/

namespace Prot

open Backend

/-- What a build of the simulator fixes: where the state and the helpers are, and what the
registers hold when generated code is called. -/
structure Build (μ : Type) where
  xbyak : XByak.Platform μ
  xbyakJunk : XByak.Machine μ
  asmjitState : BitVec 64
  asmjitJunk : AsmJit.Machine μ
  lightning : Lightning.Platform μ
  lightningJunk : Lightning.Machine μ
  mirState : BitVec 64
  mirJunk : MIR.Machine μ

/-- No translator has this name. -/
structure UndefinedBackend where
  backend : String

/-- The text of the exception. -/
def UndefinedBackend.message (e : UndefinedBackend) : String :=
  "Undefined JIT backend: " ++ e.backend

namespace JitFactory

variable {μ : Type} [Memory μ] (build : Build μ)

/-- The translator of `xbyak.cc`. -/
def makeXbyak : Translator Unit μ := build.xbyak.translator build.xbyakJunk

/-- The translator of `asmjit.cc`. -/
def makeAsmJit : Translator Unit μ := AsmJit.translator build.asmjitState build.asmjitJunk

/-- The translator that builds a module for LLVM. -/
def makeLLVMBasedJIT : Translator Unit μ := LLVM.translator

/-- The translator of `lightning.cc`. -/
def makeLightning : Translator Unit μ := build.lightning.translator build.lightningJunk

/-- The translator of `mir.cc`. -/
def makeMirJit : Translator Unit μ := MIR.translator build.mirState build.mirJunk

/-- The same module, compiled by TPDE. -/
def makeTPDE : Translator Unit μ := LLVM.translator

/-- The translator that builds a graph of its own. -/
def makeIrJit : Translator Unit μ := IR.translator

/-- `JitFactory::kFactories`. The cached interpreter has no translator. -/
def kFactories : List (String × Option (Translator Unit μ)) :=
  [("xbyak", some (makeXbyak build)), ("asmjit", some (makeAsmJit build)),
    ("cached-interp", none), ("llvm", some makeLLVMBasedJIT),
    ("lightning", some (makeLightning build)), ("mir", some (makeMirJit build)),
    ("tpde", some makeTPDE), ("ir", some makeIrJit)]

/-- `JitFactory::backends`. -/
def backends : List String := (kFactories build).map Prod.fst

/-- `JitFactory::createTranslator`. -/
def createTranslator (backend : String) :
    Except UndefinedBackend (Option (Translator Unit μ)) :=
  match (kFactories build).lookup backend with
  | some translator => pure translator
  | none => throw { backend }

/-- `JitFactory::exist`. -/
def exist (backend : String) : Bool := ((kFactories build).lookup backend).isSome

/-- The code that runs under a name. -/
def backendOf : String → Option Backend
  | "xbyak" => some .xbyak
  | "asmjit" => some .asmjit
  | "llvm" | "tpde" => some .llvm
  | "lightning" => some .lightning
  | "mir" => some .mir
  | "ir" => some .ir
  | _ => none

variable {build} {backend : String}

theorem createTranslator_eq_ok_iff {t : Option (Translator Unit μ)} :
    createTranslator build backend = .ok t ↔ (kFactories build).lookup backend = some t := by
  rw [createTranslator]
  cases (kFactories build).lookup backend with
  | none => exact iff_of_false nofun nofun
  | some t' =>
    exact ⟨fun h => congrArg some (Except.ok.inj h), fun h => congrArg _ (Option.some.inj h)⟩

/-- The names that exist are those of the table. -/
theorem exist_iff : exist build backend ↔ backend ∈ backends build := by
  simp only [exist, List.lookup_isSome_iff, beq_iff_eq, backends, List.mem_map]
  exact ⟨fun ⟨p, hp, h⟩ => ⟨p, hp, h.symm⟩, fun ⟨p, hp, h⟩ => ⟨p, hp, h.symm⟩⟩

/-- The names that are accepted. -/
theorem exists_createTranslator_iff :
    (∃ t, createTranslator build backend = .ok t) ↔ backend ∈ backends build := by
  rw [← exist_iff, exist, Option.isSome_iff_exists]
  exact exists_congr fun _ => createTranslator_eq_ok_iff

/-- What is created for a name is no translator, or the one of its backend. -/
theorem translates_of_createTranslator {t : Option (Translator Unit μ)}
    (h : createTranslator build backend = .ok t) :
    ∀ translate ∈ t, ∃ b ∈ backendOf backend, b.Translates translate := by
  obtain ⟨l, l', hfactories, -⟩ :=
    List.lookup_eq_some_iff.mp (createTranslator_eq_ok_iff.mp h)
  have hmem : (backend, t) ∈ kFactories build := by simp [hfactories]
  simp only [kFactories, List.mem_cons, Prod.mk.injEq, List.not_mem_nil, or_false] at hmem
  rcases hmem with ⟨rfl, rfl⟩ | ⟨rfl, rfl⟩ | ⟨rfl, rfl⟩ | ⟨rfl, rfl⟩ | ⟨rfl, rfl⟩ | ⟨rfl, rfl⟩ |
    ⟨rfl, rfl⟩ | ⟨rfl, rfl⟩ <;> rintro _ ⟨rfl⟩
  · exact ⟨_, rfl, XByak.translates_translator _ _⟩
  · exact ⟨_, rfl, AsmJit.translates_translator _ _⟩
  · exact ⟨_, rfl, LLVM.translates_translator⟩
  · exact ⟨_, rfl, Lightning.translates_translator _ _⟩
  · exact ⟨_, rfl, MIR.translates_translator _ _⟩
  · exact ⟨_, rfl, LLVM.translates_translator⟩
  · exact ⟨_, rfl, IR.translates_translator⟩

end JitFactory

end Prot
