import DataCalculus.Json.Basic
import DataCalculus.Json.Token

/-!
# Reading JSON text

Tokens are put together by a machine that keeps the arrays and objects it is inside of on a stack.
How deep these may be nested is a parameter. A failure carries no reason.
-/

namespace DataCalculus.Json

set_option autoImplicit false

/-- An array or object whose end has not been seen. -/
inductive Frame where
  /-- An array with the items so far, in reverse. -/
  | array (items : List Json)
  /-- An object with the members so far, and the key of the one being read. -/
  | object (fields : List (String × Json)) (key : String)

/-- What the machine has to see next. -/
inductive Reader where
  | value (stack : List Frame)
  /-- A value, or the end of the array that was just opened. -/
  | firstItem (stack : List Frame)
  /-- A key, or the end of the object that was just opened. -/
  | firstKey (stack : List Frame)
  | nextKey (fields : List (String × Json)) (stack : List Frame)
  | colon (fields : List (String × Json)) (key : String) (stack : List Frame)
  | after (value : Json) (stack : List Frame)

namespace Reader

/-- Begins a value inside of the containers in `stack`, of which there may be `limit`. -/
def start? (limit : Nat) (stack : List Frame) (t : Token) : Option Reader :=
  match t with
  | .null => some (.after .null stack)
  | .bool b => some (.after (.bool b) stack)
  | .num n => some (.after (.num n) stack)
  | .str s => some (.after (.str s) stack)
  | .openArray => if stack.length < limit then some (.firstItem stack) else none
  | .openObject => if stack.length < limit then some (.firstKey stack) else none
  | .closeArray | .closeObject | .comma | .colon => none

def step? (limit : Nat) (r : Reader) (t : Token) : Option Reader :=
  match r, t with
  | .value stack, t => start? limit stack t
  | .firstItem stack, .closeArray => some (.after (.arr []) stack)
  | .firstItem stack, t => start? limit (.array [] :: stack) t
  | .firstKey stack, .closeObject => some (.after (.obj []) stack)
  | .firstKey stack, .str key => some (.colon [] key stack)
  | .nextKey fields stack, .str key => some (.colon fields key stack)
  | .colon fields key stack, .colon => some (.value (.object fields key :: stack))
  | .after v (.array items :: stack), .comma => some (.value (.array (v :: items) :: stack))
  | .after v (.array items :: stack), .closeArray => some (.after (.arr (v :: items).reverse) stack)
  | .after v (.object fields key :: stack), .comma =>
    some (.nextKey (Entries.insert key v fields) stack)
  | .after v (.object fields key :: stack), .closeObject =>
    some (.after (.obj (Entries.insert key v fields)) stack)
  | _, _ => none

def finish? : Reader → Option Json
  | .after v [] => some v
  | _ => none

def run? (limit : Nat) (r : Reader) (ts : List Token) : Option Reader := ts.foldlM (step? limit) r

theorem run?_append (limit : Nat) (r : Reader) (ts us : List Token) :
    run? limit r (ts ++ us) = (run? limit r ts).bind fun q => run? limit q us := by
  simp [run?, List.foldlM_append, bind]

end Reader

/-- The tree that the tokens describe, with containers nested at most `limit` deep. -/
def ofTokens? (limit : Nat) (ts : List Token) : Option Json :=
  (Reader.run? limit (.value []) ts).bind Reader.finish?

/-- The greatest nesting of containers that `ofText?` reads. -/
def maxNesting : Nat := 127

/-- Reads a text with containers nested at most `limit` deep. -/
def ofTextWithin? (limit : Nat) (s : String) : Option Json :=
  (Token.scan? s.toList).bind (ofTokens? limit)

def ofText? (s : String) : Option Json := ofTextWithin? maxNesting s

end DataCalculus.Json
