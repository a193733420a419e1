/-!
Diagnostic records. An operation that reports runs in any monad that takes records, so the same
definition serves a caller who keeps them (`Logging`) and one who does not (`Id`).
-/
namespace InductiveTerms

inductive LogLevel where
  | debug
  | trace
  deriving DecidableEq, Repr

structure LogRecord where
  level : LogLevel
  text : String
  deriving DecidableEq, Repr

/-- Takes diagnostic records, in the order in which they arise. -/
class LogSink (m : Type → Type) where
  emit : LogRecord → m Unit

instance : LogSink Id where
  emit _ := pure ()

/-- Keeps every record, the latest last. -/
def Logging (m : Type → Type) (α : Type) : Type := StateT (List LogRecord) m α

namespace Logging
variable {m : Type → Type} {α : Type}

instance [Monad m] : Monad (Logging m) := inferInstanceAs (Monad (StateT (List LogRecord) m))

instance [Monad m] [LawfulMonad m] : LawfulMonad (Logging m) :=
  inferInstanceAs (LawfulMonad (StateT (List LogRecord) m))

instance [Monad m] : MonadLift m (Logging m) :=
  inferInstanceAs (MonadLift m (StateT (List LogRecord) m))

instance [Monad m] : LogSink (Logging m) where
  emit r := (modify (· ++ [r]) : StateT (List LogRecord) m Unit)

/-- Runs an action from an empty log and returns the log with the result. -/
def run (x : Logging m α) : m (α × List LogRecord) := StateT.run x []

end Logging

instance {m : Type → Type} {σ : Type} [Monad m] [LogSink m] : LogSink (StateT σ m) where
  emit r := StateT.lift (LogSink.emit r)

def logDebug {m : Type → Type} [LogSink m] (text : String) : m Unit := LogSink.emit ⟨.debug, text⟩

def logTrace {m : Type → Type} [LogSink m] (text : String) : m Unit := LogSink.emit ⟨.trace, text⟩

end InductiveTerms
