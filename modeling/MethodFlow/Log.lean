/-!
# Log events
-/

namespace MethodFlow

/-- How much an event matters. -/
inductive LogLevel where
  | warn
  | debug
  | trace
  deriving DecidableEq, Repr

/-- The name of a level. -/
def LogLevel.name : LogLevel → String
  | .warn => "WARN"
  | .debug => "DEBUG"
  | .trace => "TRACE"

/-- Something an analysis has to say about its own work. -/
structure LogEvent where
  level : LogLevel
  text : String
  deriving DecidableEq, Repr

/-- The level and the text of an event. -/
def LogEvent.render (e : LogEvent) : String := e.level.name ++ " " ++ e.text

end MethodFlow
