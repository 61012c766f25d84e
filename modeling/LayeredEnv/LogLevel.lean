namespace LayeredEnv

/-- Each level reports all that the levels before it report. -/
inductive LogLevel where
  | off
  | error
  | warn
  | info
  | debug
  | trace
  deriving DecidableEq, Repr

namespace LogLevel

def name : LogLevel → String
  | off => "OFF"
  | error => "ERROR"
  | warn => "WARN"
  | info => "INFO"
  | debug => "DEBUG"
  | trace => "TRACE"

def all : List LogLevel := [off, error, warn, info, debug, trace]

def ofName? (text : String) : Option LogLevel :=
  all.find? (·.name == text.map Char.toUpper)

def next : LogLevel → LogLevel
  | off => error
  | error => warn
  | warn => info
  | info => debug
  | debug => trace
  | trace => trace

/-- The configured level, or `warn` for a text that names none, raised by some steps. -/
def configured (text : String) (steps : Nat) : LogLevel :=
  steps.repeat next ((ofName? text).getD warn)

end LogLevel
end LayeredEnv
