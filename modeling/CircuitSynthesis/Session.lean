import CircuitSynthesis.Compiler

/-!
# Sessions

A compiler is called many times. What passes from one call to the next is its cache of sign tables, also when the call
fails.

In `qsynth-compile` the calls are those of `UnitaryCompiler`, and the cache is its `SignTableCache`.
-/

namespace CircuitSynthesis

/-- A call of a compiler. -/
inductive Call (R : Type) where
  | compile {m n : Nat} (unitary : Dense (Amplitude R) m n) (qubits : Nat)
  | prepareState (amplitudes : List (Amplitude R))
  | compileDiagonal (diagonal : List (Amplitude R))
  | classify {m n : Nat} (unitary : Dense (Amplitude R) m n) (qubits : Nat)
  | validate {m n : Nat} (unitary : Dense (Amplitude R) m n) (qubits : Nat)

/-- What a call returns when it succeeds. -/
inductive Answer (R : Type) where
  | program (program : Program R)
  | classification (kind : Classification)
  /-- The operator passed the checks. -/
  | accepted

namespace Compiler

variable {R : Type} [Scalar R]

/-- Carries out a call. -/
def perform (c : Compiler R) : Call R → Synthesis R (Answer R)
  | .compile unitary qubits => return .program (← c.compile unitary qubits)
  | .prepareState amplitudes => return .program (← c.prepareState amplitudes)
  | .compileDiagonal diagonal => return .program (← c.compileDiagonal diagonal)
  | .classify unitary qubits => return .classification (← c.classify unitary qubits)
  | .validate unitary qubits => do
    let _ ← c.validate unitary qubits
    return .accepted

/-- The answers to a sequence of calls, and the cache at the end. -/
def session (c : Compiler R) (cache : SignTableCache R) :
    List (Call R) → List (Except (SynthesisError R) (Answer R)) × SignTableCache R
  | [] => ([], cache)
  | call :: calls =>
    let (answer, cache) := ((c.perform call).run cache).run
    let (answers, cache) := c.session cache calls
    (answer :: answers, cache)

/-- The answer to a call of a new compiler. -/
def fresh (c : Compiler R) (call : Call R) : Except (SynthesisError R) (Answer R) := ((c.perform call).run .empty).run.1

end Compiler

end CircuitSynthesis
