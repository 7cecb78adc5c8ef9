import Shockwave.Number.Decimal
import Shockwave.Text.Quoted

/-!
Literal values of the script language and their source text.
-/
namespace Shockwave

inductive Datum where
  | void
  | symbol (name : String)
  | varRef (name : String)
  | string (value : String)
  | int (value : Int32)
  | float (value : Binary64)
  | list (items : List Datum)
  deriving Repr, Inhabited

namespace Datum

def toInt : Datum → Int32
  | .int value => value
  | .float value => value.toInt32
  | _ => 0

def isInt (value : Int32) : Datum → Bool
  | .int v => v == value
  | _ => false

mutual

def text : Datum → String
  | .void => "VOID"
  | .symbol name => "#" ++ name
  | .varRef name => name
  | .string value => Quoted.literal value
  | .int value => toString value.toInt
  | .float value => value.text
  | .list items => "[" ++ String.intercalate ", " (texts items) ++ "]"

def texts : List Datum → List String
  | [] => []
  | item :: items => item.text :: texts items

end

end Datum
end Shockwave
