import SourceAtlas.Text.Utf8

/-!
# Log records

What a run reports while it goes on. A record has a level and names the part of the program that
made it.
-/

namespace SourceAtlas

/-- How serious a record is. -/
inductive LogLevel where
  | debug
  | info
  | warning
  | error
  deriving DecidableEq, Repr

namespace LogLevel

def label : LogLevel → Text
  | .debug => "DEBUG".toList
  | .info => "INFO".toList
  | .warning => "WARNING".toList
  | .error => "ERROR".toList

def rank : LogLevel → Nat
  | .debug => 0
  | .info => 1
  | .warning => 2
  | .error => 3

end LogLevel

/-- The parts of the program that make records. -/
inductive LogOrigin where
  | run
  | workspace
  | classification
  | output
  deriving DecidableEq, Repr

def LogOrigin.label : LogOrigin → Text
  | .run => "overviewgen.orchestrator".toList
  | .workspace => "overviewgen.workspace".toList
  | .classification => "overviewgen.classification".toList
  | .output => "overviewgen.output".toList

/-- One record. -/
structure LogRecord where
  level : LogLevel
  origin : LogOrigin
  message : Text
  deriving DecidableEq, Repr

namespace LogRecord

def consoleLine (record : LogRecord) : Text :=
  "[overviewgen] ".toList ++ record.level.label ++ ' ' :: (record.message ++ ['\n'])

/-- The line of a record in a log file, with the time it was made at. -/
def fileLine (stamp : Text) (record : LogRecord) : Text :=
  stamp ++ ' ' :: (record.level.label ++ ' ' :: (record.origin.label ++ ": ".toList ++
    record.message ++ ['\n']))

def consoleLines (least : LogLevel) (records : List LogRecord) : Text :=
  (records.filter fun record => least.rank ≤ record.level.rank).flatMap consoleLine

end LogRecord

/-- A value with the records made on the way to it. -/
structure Logged (α : Type) where
  log : List LogRecord
  value : α

end SourceAtlas
