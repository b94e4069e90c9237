import Tern.Emit.Basic

/-!
# Scripts of register steps

A script uses registers and writes lines step by step; the steps that lend registers hold
further steps inside.  Steps of another kind can be mixed in through the parameter `ι`.
-/

namespace Tern.Emit

inductive Step (ι : Type) where
  | acquire
  | release (rs : List Register)
  | isBusy (r : Register)
  | live
  | write (l : Line)
  | fail (text : String)
  | withScratch (body : List (Step ι))
  | reserving (rs : List Register) (body : List (Step ι))
  | other (i : ι)

inductive Answer (ρ : Type) where
  | done
  | register (r : Register)
  | registers (rs : List Register)
  | flag (b : Bool)
  | temporary (r : Register) (body : List (Answer ρ))
  | reserved (body : List (Answer ρ))
  | other (x : ρ)

namespace Step

variable {m : Type → Type} [Monad m] [MonadFinally m] [MonadLiftT Emit m] {ι ρ : Type}

mutual

/-- Runs a step; `act` runs the steps of another kind. -/
def run (act : ι → m ρ) : Step ι → m (Answer ρ)
  | acquire => do
      let r ← (Emit.acquire : Emit Register)
      return .register r
  | release rs => do
      (Emit.release rs : Emit Unit)
      return .done
  | isBusy r => do
      let b ← (Emit.isBusy r : Emit Bool)
      return .flag b
  | live => do
      let rs ← (Emit.live : Emit (List Register))
      return .registers rs
  | write l => do
      (Emit.write l : Emit Unit)
      return .done
  | fail text => do
      (throw (.other text) : Emit Unit)
      return .done
  | withScratch body =>
      Emit.withScratch fun r => do
        let answers ← runAll act body
        return .temporary r answers
  | reserving rs body =>
      Emit.reserving rs do
        let answers ← runAll act body
        return .reserved answers
  | other i => do
      let x ← act i
      return .other x

def runAll (act : ι → m ρ) : List (Step ι) → m (List (Answer ρ))
  | [] => return []
  | step :: steps => do
      let answer ← run act step
      let answers ← runAll act steps
      return answer :: answers

end

end Step

end Tern.Emit
