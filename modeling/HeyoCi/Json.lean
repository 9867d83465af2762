import Mathlib.Data.List.Defs
import Mathlib.Tactic.SplitIfs

/-!
# JSON values

* `Json`: the values of the `matrix`, `outputs` and expression columns. An object keeps its members
  sorted by key, as the map of the source does;
* `Json.decEq`: values can be compared;
* `Json.Obj`, `Json.Obj.get`, `Json.Obj.insert`: its members, a lookup and a replacing insert, which
  leaves the other members alone.
-/

namespace HeyoCi

/-- A JSON value. A number is `mantissa * 10 ^ (-exponent)`. -/
inductive Json where
  | null
  | bool (b : Bool)
  | num (mantissa : Int) (exponent : Nat)
  | str (s : String)
  | arr (items : List Json)
  | obj (members : List (String × Json))
  deriving Repr, Inhabited

namespace Json

mutual

/-- Equality of values, by their structure. -/
def decEq : (a b : Json) → Decidable (a = b)
  | null, null => .isTrue rfl
  | bool a, bool b => decidable_of_iff (a = b) (by simp)
  | num m e, num m' e' => decidable_of_iff (m = m' ∧ e = e') (by simp)
  | str a, str b => decidable_of_iff (a = b) (by simp)
  | arr as, arr bs => match decEqItems as bs with
    | .isTrue h => .isTrue (by rw [h])
    | .isFalse h => .isFalse (by simpa using h)
  | obj as, obj bs => match decEqMembers as bs with
    | .isTrue h => .isTrue (by rw [h])
    | .isFalse h => .isFalse (by simpa using h)
  | null, bool _ | null, num .. | null, str _ | null, arr _ | null, obj _
  | bool _, null | bool _, num .. | bool _, str _ | bool _, arr _ | bool _, obj _
  | num .., null | num .., bool _ | num .., str _ | num .., arr _ | num .., obj _
  | str _, null | str _, bool _ | str _, num .. | str _, arr _ | str _, obj _
  | arr _, null | arr _, bool _ | arr _, num .. | arr _, str _ | arr _, obj _
  | obj _, null | obj _, bool _ | obj _, num .. | obj _, str _ | obj _, arr _ =>
    .isFalse (by simp)

def decEqItems : (as bs : List Json) → Decidable (as = bs)
  | [], [] => .isTrue rfl
  | a :: as, b :: bs => match decEq a b, decEqItems as bs with
    | .isTrue h, .isTrue h' => .isTrue (by rw [h, h'])
    | .isFalse h, _ => .isFalse fun heq => h (List.cons.inj heq).1
    | _, .isFalse h => .isFalse fun heq => h (List.cons.inj heq).2
  | [], _ :: _ | _ :: _, [] => .isFalse (by simp)

def decEqMembers : (as bs : List (String × Json)) → Decidable (as = bs)
  | [], [] => .isTrue rfl
  | (k, a) :: as, (l, b) :: bs => match decEq a b, decEqMembers as bs with
    | .isTrue h, .isTrue h' => decidable_of_iff (k = l) (by simp [h, h'])
    | .isFalse h, _ => .isFalse fun heq => h (Prod.mk.inj (List.cons.inj heq).1).2
    | _, .isFalse h => .isFalse fun heq => h (List.cons.inj heq).2
  | [], _ :: _ | _ :: _, [] => .isFalse (by simp)

end

instance : DecidableEq Json := decEq

/-- The members of an object. -/
abbrev Obj := List (String × Json)

/-- The value of a member. -/
def Obj.get (o : Obj) (k : String) : Option Json := o.lookup k

/-- Insert a member, replacing one of the same key. -/
def Obj.insert (k : String) (v : Json) : Obj → Obj
  | [] => [(k, v)]
  | (k', v') :: o => if k = k' then (k, v) :: o
      else if k < k' then (k, v) :: (k', v') :: o else (k', v') :: Obj.insert k v o

theorem Obj.get_insert_of_ne {k k' : String} (h : k' ≠ k) (v : Json) (o : Obj) :
    Obj.get (Obj.insert k v o) k' = Obj.get o k' := by
  have hk : (k' == k) = false := beq_false_of_ne h
  unfold Obj.get
  induction o with
  | nil => simp only [Obj.insert, List.lookup_cons, hk]
  | cons m o ih =>
    obtain ⟨l, w⟩ := m
    unfold Obj.insert
    split_ifs with hl hlt
    · subst hl
      simp only [List.lookup_cons, hk]
    · simp only [List.lookup_cons, hk]
    · simp only [List.lookup_cons, ih]

theorem Obj.get_insert (k : String) (v : Json) (o : Obj) :
    Obj.get (Obj.insert k v o) k = some v := by
  unfold Obj.get
  induction o with
  | nil => simp [Obj.insert]
  | cons m o ih =>
    obtain ⟨l, w⟩ := m
    unfold Obj.insert
    split_ifs with hl hlt
    · simp
    · simp
    · have hk : (k == l) = false := beq_false_of_ne hl
      simp only [List.lookup_cons, hk, ih]

/-- Insert every member of another object. -/
def Obj.extend (dst src : Obj) : Obj := src.foldl (fun o kv => Obj.insert kv.1 kv.2 o) dst

/-- The members, when the value is an object. -/
def asObject : Json → Option Obj
  | obj o => some o
  | _ => none

end Json

end HeyoCi
