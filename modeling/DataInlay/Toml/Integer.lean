/-
# DataInlay.Toml.Integer — integers in TOML

A decimal integer may have a sign and no needless zero in front. Hexadecimal, octal
and binary integers have a marker, no sign, and any zeros. In all of them single
underscores may stand between digits, and nowhere else.
-/
import DataInlay.Toml.Text

namespace DataInlay.Toml

/-- Reads digits behind a value already read, each with an underscore before it or
without one. -/
def digitsFrom? (base value : Nat) : List Char → Option Nat
  | [] => some value
  | '_' :: c :: rest => (digit? base c).bind fun d => digitsFrom? base (value * base + d) rest
  | c :: rest => (digit? base c).bind fun d => digitsFrom? base (value * base + d) rest

/-- Reads at least one digit, with underscores between digits only. -/
def digits? (base : Nat) : List Char → Option Nat
  | [] => none
  | c :: rest => (digit? base c).bind fun d => digitsFrom? base d rest

/-- Reads a decimal number without a needless zero in front. -/
def decimal? : List Char → Option Nat
  | ['0'] => some 0
  | '0' :: _ => none
  | s => digits? 10 s

/-- Reads the whole text as an integer. -/
def integer? : List Char → Option Int
  | '0' :: 'x' :: rest => (digits? 16 rest).map Int.ofNat
  | '0' :: 'o' :: rest => (digits? 8 rest).map Int.ofNat
  | '0' :: 'b' :: rest => (digits? 2 rest).map Int.ofNat
  | '+' :: rest => (decimal? rest).map Int.ofNat
  | '-' :: rest => (decimal? rest).map fun n => -(n : Int)
  | s => (decimal? s).map Int.ofNat

end DataInlay.Toml
