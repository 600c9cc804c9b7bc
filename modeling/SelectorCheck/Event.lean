/-
  Log lines.

  An operation that logs has a companion that lists its events in order, so
  that results can be reasoned about without the log.
-/

namespace SelectorCheck

/-- How important a log line is. -/
inductive Level where
  | trace
  | debug
  | info
  | warn
deriving DecidableEq

def Level.word : Level → String
  | .trace => "trace"
  | .debug => "debug"
  | .info => "info"
  | .warn => "warn"

structure Event where
  level : Level
  message : String
deriving DecidableEq

def Event.line (e : Event) : String :=
  e.level.word ++ ": " ++ e.message

end SelectorCheck
