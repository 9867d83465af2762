import HeyoCi.Json
import HeyoCi.Lib.Words
import HeyoCi.Paths

/-!
# The values of expressions

* `Floats`: the floating point numbers, and the crate that reads and writes values; `Floats.absent`;
* `walk`, `lookup`: a property of a value, and a scope of the context;
* `number`, `toDisplay`, `truthy`, `looseEq`, `asNumber`: what the operators go by;
* `call`: the functions.
-/

namespace HeyoCi.Expr

/-- What is used of `f64` and of `serde_json`. -/
structure Floats (F : Type) where
  /-- `str::parse`. -/
  parse : String → Option F
  /-- `{:?}`. -/
  debug : F → String
  zero : F
  one : F
  eq : F → F → Bool
  lt : F → F → Bool
  le : F → F → Bool
  /-- The integer that a float is, if it is one and below 2 ^ 53 in size. -/
  integral : F → Option Int
  /-- `Number::from_f64`. -/
  toNumber : F → Option (Int × Nat)
  /-- `Number::as_f64`. -/
  ofNumber : Int → Nat → Option F
  /-- `Value::to_string`. -/
  toText : Json → String
  /-- `serde_json::from_str`. -/
  ofText : String → Option Json

/-- Floats for texts in which there are no numbers. -/
def Floats.absent : Floats Unit where
  parse _ := none
  debug _ := ""
  zero := ()
  one := ()
  eq _ _ := true
  lt _ _ := false
  le _ _ := true
  integral _ := none
  toNumber _ := none
  ofNumber _ _ := none
  toText _ := ""
  ofText _ := none

/-! ## Properties -/

/-- `str::parse` of a `usize`. -/
def parseUsize (s : String) : Option Nat :=
  let digits := match s.toList with
    | '+' :: cs => cs
    | cs => cs
  if digits.isEmpty || !digits.all Char.isDigit then none
  else
    let n := digits.foldl (fun n c => 10 * n + (c.toNat - '0'.toNat)) 0
    if n < 18446744073709551616 then some n else none

/-- A property of an object, or an item of an array. -/
def property (cur : Json) (seg : String) : Json := match cur with
  | .obj map => (Json.Obj.get map seg).getD .null
  | .arr items => ((parseUsize seg).bind fun i => items[i]?).getD .null
  | _ => .null

/-- `walk`. -/
def walk (cur : Json) (segments : List String) : Json := segments.foldl property cur

/-- `Context::lookup`. -/
def lookup (ctx : Json.Obj) : List String → Json
  | [] => .null
  | first :: rest => match Json.Obj.get ctx first with
    | some root => walk root rest
    | none => .null

/-- `Context::status`. -/
def status (ctx : Json.Obj) : String := match Json.Obj.get ctx "__status" with
  | some (.str s) => s
  | _ => "success"

section Operators

variable {F : Type} (fl : Floats F)

/-- A float as a value, an integer where it is one. -/
def number (n : F) : Json := match fl.integral n with
  | some i => .num i 0
  | none => match fl.toNumber n with
    | some (mantissa, exponent) => .num mantissa exponent
    | none => .null

/-- How a value is put into a text. -/
def toDisplay : Json → String
  | .null => ""
  | .str s => s
  | .bool b => toString b
  | other => fl.toText other

/-- The strings `false` and `0` are not true. -/
def truthy : Json → Bool
  | .null => false
  | .bool b => b
  | .num m e => match fl.ofNumber m e with
    | some f => !fl.eq f fl.zero
    | none => false
  | .str s => !s.isEmpty && s ≠ "false" && s ≠ "0"
  | .arr items => !items.isEmpty
  | .obj members => !members.isEmpty

/-- Values of different types are compared as they are displayed. -/
def looseEq : Json → Json → Bool
  | .null, .null => true
  | .bool x, .bool y => x = y
  | .num m e, .num m' e' => match fl.ofNumber m e, fl.ofNumber m' e' with
    | some f, some g => fl.eq f g
    | none, none => true
    | _, _ => false
  | .str x, .str y => x = y
  | .null, _ | _, .null => false
  | a, b => toDisplay fl a = toDisplay fl b

def asNumber : Json → Option F
  | .num m e => fl.ofNumber m e
  | .str s => fl.parse (Text.trim s)
  | .bool b => some (if b then fl.one else fl.zero)
  | _ => none

end Operators

/-! ## Functions -/

inductive ExprError where
  | unexpectedChar (c : Char)
  | unterminatedString
  | badNumber (text : String)
  | unclosedParen
  | trailingDot (path : String)
  | unexpected (token : String)
  | trailing (token : String)
  | unknownFunction (name : String)
  deriving Repr, DecidableEq

instance : Inhabited ExprError := ⟨.unclosedParen⟩

section Call

variable {F : Type} (fl : Floats F) (ctx : Json.Obj)

/-- `format`: the placeholders of the arguments, one after the other. -/
def format (template : String) (args : List Json) : String :=
  String.ofList <| args.zipIdx.foldl
    (fun out (a, i) =>
      Words.replaceAll ('{' :: (toString i).toList ++ ['}']) (toDisplay fl a).toList out)
    template.toList

/-- `changed`: true where no diff can be read. -/
def changed (args : List Json) : Bool :=
  if !truthy fl (lookup ctx ["ci", "changes_known"]) then true
  else match lookup ctx ["ci", "changed_files"] with
    | .arr files => args.any fun pat =>
      files.any fun f => Paths.pathMatches (toDisplay fl pat) (toDisplay fl f)
    | _ => true

/-- `Parser::call`. -/
def call (name : String) (args : List Json) : Except ExprError Json :=
  let s := fun i => ((args[i]?).map (toDisplay fl)).getD ""
  match name with
  | "contains" => .ok <| .bool <| match args with
    | .arr items :: rest => items.any fun item => looseEq fl item (rest.head?.getD .null)
    | _ => decide ((s 1).toList <:+: (s 0).toList)
  | "startsWith" => .ok (.bool ((s 1).toList.isPrefixOf (s 0).toList))
  | "endsWith" => .ok (.bool ((s 1).toList.isSuffixOf (s 0).toList))
  | "format" => .ok (.str (format fl (s 0) args.tail))
  | "join" =>
    let sep := if args.length > 1 then s 1 else ","
    .ok <| .str <| match args with
      | .arr items :: _ => sep.intercalate (items.map (toDisplay fl))
      | _ => s 0
  | "toJSON" => .ok (.str (fl.toText (args.head?.getD .null)))
  | "fromJSON" => .ok ((fl.ofText (s 0)).getD .null)
  | "changed" => .ok (.bool (changed fl ctx args))
  | "success" => .ok (.bool (status ctx = "success"))
  | "failure" => .ok (.bool (status ctx = "failure"))
  | "cancelled" => .ok (.bool (status ctx = "cancelled"))
  | "always" => .ok (.bool true)
  | other => .error (.unknownFunction other)

end Call

end HeyoCi.Expr
