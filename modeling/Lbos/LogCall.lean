import Lbos.CString

/-! The levels and the macros of `include/lib/log.h`. -/

namespace Lbos

open Lib

inductive LogLevel where
  | debug | info | warn | error | fatal
  deriving DecidableEq

namespace LogLevel

/-- The value of the enumeration's constant. -/
def value : LogLevel → Nat
  | debug => 0
  | info => 1
  | warn => 2
  | error => 3
  | fatal => 4

/-- The escape character, `\\033`. -/
def escape : Byte := 0x1B

/-- `"\\033[" colour "m"` for the colour of a level. -/
def color : LogLevel → List Byte
  | debug => escape :: ['[', '3', '6', 'm'].map charByte
  | info => escape :: ['[', '3', '2', 'm'].map charByte
  | warn => escape :: ['[', '3', '3', 'm'].map charByte
  | error => escape :: ['[', '3', '1', 'm'].map charByte
  | fatal => escape :: ['[', '3', '5', 'm'].map charByte

/-- `LOG_COLOR_RESET`. -/
def colorReset : List Byte := escape :: ['[', '0', 'm'].map charByte

end LogLevel

/-- A call of `log_write`. -/
structure LogCall where
  level : LogLevel
  format : List Byte
  args : List Word
  deriving DecidableEq

/-- `LOG_DEBUG`, `LOG_INFO` and so on. -/
def LogLevel.log (level : LogLevel) (fmt : String) (args : List Word) : LogCall :=
  ⟨level, level.color ++ fmt.toList.map charByte ++ colorReset ++ [0], args⟩

end Lbos
