import CountedLisp.Document.Meaning
import CountedLisp.Interp.Start

/-!
# Configurations

A configuration says how an interpreter is set up.
-/
namespace CountedLisp

open Document

/-- How an interpreter is set up. A symbol limit of zero bounds nothing. -/
structure Config where
  debug : Bool := false
  prompt : Text := []
  historyFile : Text := []
  symbolLimit : Int := SymbolTable.defaultLimit
  preload : List Text := []
  deriving Repr, DecidableEq

namespace Config

def settings (c : Config) : List Setting :=
  [.reader true, .debug c.debug, .symbolLimit c.symbolLimit]

/-- The truth value that is meant. Some words stand for one, also in quotes. -/
def bool? : Meaning → Option Bool
  | .truth b => some b
  | .words t =>
    if Meaning.isOneOf ["y", "Y", "yes", "Yes", "YES", "on", "On", "ON"] t then some true
    else if Meaning.isOneOf ["n", "N", "no", "No", "NO", "off", "Off", "OFF"] t then some false
    else none
  | _ => none

/-- The integer of 64 bits that is meant. A fraction is cut off, and a decimal too small for an
integer stands for the least one. -/
def int? : Meaning → Option Int
  | .integer n => if n < Int.pow 2 63 then some n else none
  | .decimal x =>
    let limit : Float := 9223372036854775808.0
    if -limit ≤ x && x < limit then some x.toInt64.toInt
    else if x ≤ limit then some (-Int.pow 2 63)
    else none
  | _ => none

end Config

end CountedLisp
