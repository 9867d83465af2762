import Mathlib.Data.List.Basic
import Mathlib.Data.Option.Basic

/-!
# Codecs

* `Codec`: a writer and a reader that undoes it; `comp`, `iso`, `list`;
* `Fields`: a writer and a reader of some members of an object, which do not look at the others;
* `required`, `optional`, `omitted`, `aliased`: one member; `pair`, `iso`: several;
* `record`, `strict`: an object of some members, and one that has no others.
-/

universe u v w

/-- What is written can be read back. -/
structure Codec (V : Type u) (α : Type v) where
  encode : α → V
  decode : V → Option α
  decode_encode : ∀ a, decode (encode a) = some a

namespace Codec

variable {V W : Type u} {α β : Type v}

def comp (outer : Codec V W) {α : Type v} (inner : Codec W α) : Codec V α where
  encode a := outer.encode (inner.encode a)
  decode v := (outer.decode v).bind inner.decode
  decode_encode a := by rw [outer.decode_encode, Option.bind_some, inner.decode_encode]

/-- The values in another form. -/
def iso (c : Codec V α) (pack : α → β) (unpack : β → α) (h : ∀ b, pack (unpack b) = b) :
    Codec V β where
  encode b := c.encode (unpack b)
  decode v := (c.decode v).map pack
  decode_encode b := by rw [c.decode_encode, Option.map_some, h]

theorem mapM_decode (c : Codec V α) (as : List α) : (as.map c.encode).mapM c.decode = some as := by
  induction as with
  | nil => rfl
  | cons a as ih =>
    rw [List.map_cons, List.mapM_cons, c.decode_encode, ih]
    rfl

def list (c : Codec V α) : Codec (List V) (List α) where
  encode as := as.map c.encode
  decode vs := vs.mapM c.decode
  decode_encode := mapM_decode c

/-- Pairs with a key that is left as it is. -/
def keyed (K : Type u) (c : Codec V α) : Codec (K × V) (K × α) where
  encode ka := (ka.1, c.encode ka.2)
  decode kv := (c.decode kv.2).map (kv.1, ·)
  decode_encode ka := by rw [c.decode_encode, Option.map_some]

end Codec

/-- Some members of an object. The reader looks at no others. -/
structure Fields (K V : Type u) [BEq K] (α : Type v) where
  keys : List K
  write : α → List (K × V)
  read : List (K × V) → Option α
  keys_write : ∀ a, ∀ kv ∈ write a, kv.1 ∈ keys
  read_write : ∀ a o, (∀ k ∈ keys, o.lookup k = (write a).lookup k) → read o = some a

namespace Fields

variable {K V : Type u} [BEq K] [LawfulBEq K] {α β : Type v}

theorem lookup_write_of_notMem (f : Fields K V α) {k : K} (h : k ∉ f.keys) (a : α) :
    (f.write a).lookup k = none := by
  rw [List.lookup_eq_none_iff]
  intro kv hkv
  have hne : k ≠ kv.1 := fun heq => h (heq ▸ f.keys_write a kv hkv)
  exact bne_iff_ne.mpr hne

/-- A member that has to be there. -/
def required (c : Codec V α) (k : K) : Fields K V α where
  keys := [k]
  write a := [(k, c.encode a)]
  read o := (o.lookup k).bind c.decode
  keys_write := by simp
  read_write a o h := by
    rw [h k List.mem_cons_self, List.lookup_cons_self, Option.bind_some, c.decode_encode]

/-- A member that may be missing. -/
def optional (c : Codec V α) (k : K) (dflt : α) : Fields K V α where
  keys := [k]
  write a := [(k, c.encode a)]
  read o := (o.lookup k).elim (some dflt) c.decode
  keys_write := by simp
  read_write a o h := by
    rw [h k List.mem_cons_self, List.lookup_cons_self, Option.elim_some, c.decode_encode]

/-- A member that is not written where it has its default. -/
def omitted [DecidableEq α] (c : Codec V α) (k : K) (dflt : α) : Fields K V α where
  keys := [k]
  write a := if a = dflt then [] else [(k, c.encode a)]
  read o := (o.lookup k).elim (some dflt) c.decode
  keys_write a := by split_ifs <;> simp
  read_write a o h := by
    rw [h k List.mem_cons_self]
    split_ifs with heq
    · rw [heq]
      rfl
    · rw [List.lookup_cons_self, Option.elim_some, c.decode_encode]

/-- A member that is read under another key too, but not under both. -/
def aliased (c : Codec V α) (k k' : K) (dflt : α) (hne : k' ≠ k) : Fields K V α where
  keys := [k, k']
  write a := [(k, c.encode a)]
  read o := match o.lookup k, o.lookup k' with
    | some v, none | none, some v => c.decode v
    | none, none => some dflt
    | some _, some _ => none
  keys_write := by simp
  read_write a o h := by
    have hk : o.lookup k = some (c.encode a) := by
      rw [h k List.mem_cons_self, List.lookup_cons_self]
    have hk' : o.lookup k' = none := by
      rw [h k' (by simp), List.lookup_cons, beq_false_of_ne hne]
      rfl
    rw [hk, hk']
    exact c.decode_encode a

/-- The members of two that have no key in common. -/
def pair (f : Fields K V α) (g : Fields K V β) (h : ∀ k ∈ f.keys, k ∉ g.keys := by decide) :
    Fields K V (α × β) where
  keys := f.keys ++ g.keys
  write ab := f.write ab.1 ++ g.write ab.2
  read o := (f.read o).bind fun a => (g.read o).map (a, ·)
  keys_write ab kv hkv := by
    rcases List.mem_append.mp hkv with hf | hg
    · exact List.mem_append_left _ (f.keys_write ab.1 kv hf)
    · exact List.mem_append_right _ (g.keys_write ab.2 kv hg)
  read_write ab o ho := by
    have hf : f.read o = some ab.1 := by
      apply f.read_write
      intro k hk
      rw [ho k (List.mem_append_left _ hk), List.lookup_append,
        lookup_write_of_notMem g (h k hk), Option.or_none]
    have hg : g.read o = some ab.2 := by
      apply g.read_write
      intro k hk
      have hnot : k ∉ f.keys := fun hkf => h k hkf hk
      rw [ho k (List.mem_append_right _ hk), List.lookup_append,
        lookup_write_of_notMem f hnot, Option.none_or]
    rw [hf, hg]
    rfl

/-- The members in another form. -/
def iso (f : Fields K V α) (pack : α → β) (unpack : β → α) (h : ∀ b, pack (unpack b) = b) :
    Fields K V β where
  keys := f.keys
  write b := f.write (unpack b)
  read o := (f.read o).map pack
  keys_write b := f.keys_write (unpack b)
  read_write b o ho := by rw [f.read_write (unpack b) o ho, Option.map_some, h]

/-- An object with these members. Others are not looked at. -/
def record (f : Fields K V α) : Codec (List (K × V)) α where
  encode := f.write
  decode := f.read
  decode_encode a := f.read_write a (f.write a) fun _ _ => rfl

/-- An object with these members and no others. -/
def strict (f : Fields K V α) : Codec (List (K × V)) α where
  encode := f.write
  decode o := if o.all fun kv => f.keys.contains kv.1 then f.read o else none
  decode_encode a := by
    have hall : ((f.write a).all fun kv => f.keys.contains kv.1) = true := by
      rw [List.all_eq_true]
      intro kv hkv
      exact List.contains_iff_mem.mpr (f.keys_write a kv hkv)
    rw [if_pos hall]
    exact f.read_write a (f.write a) fun _ _ => rfl

end Fields
