import Mathlib.Tactic.Common

/-! # Programs of transactions

A program that keeps its data in a store touches it in transactions and computes in between. What
it does is given by what each transaction answers, so it can be run on a store of its own and on a
store that is opened anew for each transaction, where opening it may fail.
-/

namespace FinBit.Lib

inductive Prog (σ α : Type) : Type 1
  | done (result : Except String α)
  | tx {β : Type} (body : σ → β × σ) (next : Except String β → Prog σ α)

namespace Prog

variable {σ α β : Type}

def bind : Prog σ α → (α → Prog σ β) → Prog σ β
  | done (.ok a), f => f a
  | done (.error e), _ => done (.error e)
  | tx body next, f => tx body fun answer => (next answer).bind f

/-- `try` with its handler. -/
def handled : Prog σ α → (String → Prog σ α) → Prog σ α
  | done (.ok a), _ => done (.ok a)
  | done (.error e), handler => handler e
  | tx body next, handler => tx body fun answer => (next answer).handled handler

instance : Monad (Prog σ) where
  pure a := done (.ok a)
  bind := bind

def throw (e : String) : Prog σ α :=
  done (.error e)

def transact (body : σ → β × σ) : Prog σ β :=
  tx body done

/-- The program with a store of its own, where no transaction fails. -/
def run : Prog σ α → σ → Except String α × σ
  | done result, s => (result, s)
  | tx body next, s => (next (.ok (body s).1)).run (body s).2

/-- Whether the program looks at its store at all. -/
def opens : Prog σ α → Bool
  | done _ => false
  | tx _ _ => true

end Prog

end FinBit.Lib
