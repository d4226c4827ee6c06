import DeltaLedger.NodeTree.Call
import DeltaLedger.Program.Notice

/-!
# Programs

What a client does is a program: a finite tree of store calls, looks at the clock and notices, with a result at every
end. A program says what it would do for every reply, so one text serves for a client that runs alone and for one
whose calls are interleaved with those of others.
-/

namespace DeltaLedger

inductive Program (ε α : Type) : Type where
  | done (result : Except ε α)
  | call (c : Call) (next : c.Reply → Program ε α)
  /-- Looks at the clock, which shows UTC. -/
  | clock (next : DateTime → Program ε α)
  | note (n : Notice) (next : Program ε α)

namespace Program

variable {ε ε' α β : Type}

/-- Goes on after a program with what its result says, a failure included. -/
def andThen : Program ε α → (Except ε α → Program ε' β) → Program ε' β
  | done result, f => f result
  | call c next, f => call c fun reply => (next reply).andThen f
  | clock next, f => clock fun now => (next now).andThen f
  | note n next, f => note n (next.andThen f)

def bind : Program ε α → (α → Program ε β) → Program ε β
  | done (.ok a), f => f a
  | done (.error e), _ => done (.error e)
  | call c next, f => call c fun reply => (next reply).bind f
  | clock next, f => clock fun now => (next now).bind f
  | note n next, f => note n (next.bind f)

instance : Monad (Program ε) where
  pure a := done (.ok a)
  bind := bind

instance : MonadExcept ε (Program ε) where
  throw e := done (.error e)
  tryCatch p handle := p.andThen fun
    | .ok a => done (.ok a)
    | .error e => handle e

def fail (e : ε) : Program ε α :=
  done (.error e)

def ofExcept (result : Except ε α) : Program ε α :=
  done result

def notify (n : Notice) : Program ε Unit :=
  note n (done (.ok ()))

def log (e : Event) : Program ε Unit :=
  notify (.event e)

def now : Program ε DateTime :=
  clock fun t => done (.ok t)

def reply (c : Call) : Program ε c.Reply :=
  call c fun r => done (.ok r)

/-- What a call results in. If the store fails, so does the program. -/
def request (c : Call) (onError : StoreError → ε) : Program ε c.Result :=
  call c fun
    | .ok result => done (.ok result)
    | .error e => done (.error (onError e))

theorem bind_done (p : Program ε α) : p.bind (fun a => done (.ok a)) = p := by
  induction p with
  | done result => cases result <;> rfl
  | call c next ih => exact congrArg (call c) (funext ih)
  | clock next ih => exact congrArg clock (funext ih)
  | note n next ih => exact congrArg (note n) ih

theorem bind_assoc
    {γ : Type} (p : Program ε α) (f : α → Program ε β) (g : β → Program ε γ) :
    (p.bind f).bind g = p.bind fun a => (f a).bind g := by
  induction p with
  | done result => cases result <;> rfl
  | call c next ih => exact congrArg (call c) (funext ih)
  | clock next ih => exact congrArg clock (funext ih)
  | note n next ih => exact congrArg (note n) ih

instance : LawfulMonad (Program ε) :=
  LawfulMonad.mk' _ bind_done (fun _ _ => rfl) bind_assoc

/-- Runs a program in a setting that serves its calls, shows the time and takes its notices. -/
def run {m : Type → Type} [Monad m] (serve : (c : Call) → m c.Reply) (time : m DateTime)
    (take : Notice → m Unit) : Program ε α → m (Except ε α)
  | done result => pure result
  | call c next => do
    let r ← serve c
    (next r).run serve time take
  | clock next => do
    let t ← time
    (next t).run serve time take
  | note n next => do
    take n
    next.run serve time take

/-- Runs a program alone on a tree, at a fixed time. -/
def runAlone (time : DateTime) : Program ε α → Tree → Except ε α × Tree
  | done result, t => (result, t)
  | call c next, t => (next (t.answer c).1).runAlone time (t.answer c).2
  | clock next, t => (next time).runAlone time t
  | note _ next, t => next.runAlone time t

end Program
end DeltaLedger
