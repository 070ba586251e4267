import Squanchy.Deobfuscator.Driver
import Squanchy.Deobfuscator.Failure
import Squanchy.Instance.Shape

/-!
# What success means

A run of the driver that returns true ought to have done all that it was asked to do: extract
what the command line selects, and print the result to the requested output. The driver
drops the value of `LLVMExtract`, and `writeOutput` has none; so true says no more than that
every name was processed.
-/

namespace Squanchy

open Library

section Run

variable {D : DriverOptions} {T : Toolchain} {R M : Module} {out : Outcome}

/-- What a run that returns true has been through. -/
theorem deobfuscate_eq_ok (hlist : D.PrintFunctions = false)
    (hrun : deobfuscate D T R M = .ok out) (hret : out.returned = true) :
    ∃ M₁, deobfuscateFunctions D.options T.optimizers T.inlineRuns R M D.FunctionNames = .ok M₁ ∧
      T.optimizeModule (extractStep D T.extractPasses M₁.withAdded).2.2 = some out.module ∧
      out.events = (extractStep D T.extractPasses M₁.withAdded).2.1 ++
        (writeOutput D.OutputFile T.canOpen out.module).2 := by
  simp only [deobfuscate, hlist, Bool.false_eq_true, if_false, bind_eq_ok] at hrun
  obtain ⟨loop, hloop, hrun⟩ := hrun
  cases loop with
  | error e =>
    obtain rfl := Except.ok.inj hrun
    simp at hret
  | ok M₁ =>
    simp only [bind_eq_ok, orThrow_eq_ok] at hrun
    obtain ⟨M₂, hopt, hrun⟩ := hrun
    obtain rfl := Except.ok.inj hrun
    exact ⟨M₁, deobfuscateNames_eq_ok hloop, hopt, rfl⟩

end Run

/-- Optimizations are off, and the file system has no file that could be written. -/
def plainToolchain : Toolchain where
  optimizers := .off
  inlineRuns := plainRuns 3
  extractPasses := plainExtractPasses
  optimizeModule := some
  canOpen _ := false

end Squanchy
