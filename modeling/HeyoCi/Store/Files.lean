import HeyoCi.Image.Context

/-!
# Files below a directory

* `joinPath`: a name at the end of a path; `PlainName`: a name that is one step down;
* `Below`: a path that goes from a directory down by some names; `Below.names_inj`;
* **`Below.join`**: joining a plain name goes one step further down.
-/

namespace HeyoCi

/-- `Path::join`. -/
def joinPath (path name : String) : String :=
  if name.toList.head? = some '/' then name
  else if path = "" ∨ path.toList.getLast? = some '/' then path ++ name
  else path ++ "/" ++ name

/-- A name that is one step down. -/
def PlainName (name : String) : Prop := name ≠ "" ∧ name ≠ "." ∧ name ≠ ".." ∧ '/' ∉ name.toList

/-- The steps of a path that lead elsewhere. -/
def pathMoves (path : String) : List (FileTree.Step String) :=
  (parsePath path).steps.filter fun s => s ≠ .here

/-- A path goes from a directory down by these names, one directory each, and `..` is none of them. -/
structure Below (dir : String) (names : List String) (path : String) : Prop where
  absolute : (parsePath path).absolute = (parsePath dir).absolute
  moves : pathMoves path = pathMoves dir ++ names.map .name
  plain : ∀ n ∈ names, PlainName n

theorem below_self (dir : String) : Below dir [] dir :=
  ⟨rfl, (List.append_nil _).symm, List.forall_mem_nil _⟩

/-- A path goes down from a directory in one way. -/
theorem Below.names_inj {dir path : String} {names names' : List String} (h : Below dir names path)
    (h' : Below dir names' path) : names = names' := by
  have hmoves := h.moves.symm.trans h'.moves
  rw [List.append_cancel_left_eq] at hmoves
  exact List.map_injective_iff.mpr (fun a b hab => FileTree.Step.name.inj hab) hmoves

theorem segmentStep_of_plain {name : String} (h : PlainName name) : segmentStep name = .name name := by
  obtain ⟨hempty, hdot, hdots, -⟩ := h
  rw [segmentStep, if_neg (by tauto), if_neg hdots]

theorem pathMoves_eq (path : String) : pathMoves path =
    (((path.toList.splitOn '/').map String.ofList).map segmentStep).filter fun s => s ≠ .here := rfl

/-- The moves of a path with a plain name behind a separator. -/
theorem moves_append {xs : List Char} {name : String} (h : PlainName name) :
    pathMoves (String.ofList (xs ++ '/' :: name.toList)) = pathMoves (String.ofList xs) ++ [.name name] := by
  rw [pathMoves_eq, pathMoves_eq, String.toList_ofList, String.toList_ofList, List.splitOn_append_cons_self,
    List.splitOn_eq_singleton h.2.2.2, List.map_append, List.map_append, List.filter_append,
    List.map_singleton, List.map_singleton, String.ofList_toList, segmentStep_of_plain h]
  rfl

theorem moves_slash (xs : List Char) :
    pathMoves (String.ofList (xs ++ ['/'])) = pathMoves (String.ofList xs) := by
  have hnil : List.splitOn '/' ([] : List Char) = [[]] := rfl
  rw [pathMoves_eq, pathMoves_eq, String.toList_ofList, String.toList_ofList, List.splitOn_append_cons_self,
    hnil, List.map_append, List.map_append, List.filter_append]
  exact List.append_nil _

/-- **A plain name goes one step further down.** -/
theorem Below.join {dir path name : String} {names : List String} (h : Below dir names path)
    (hname : PlainName name) : Below dir (names ++ [name]) (joinPath path name) := by
  have hhead : name.toList.head? ≠ some '/' := fun hh => hname.2.2.2 (List.mem_of_head? hh)
  have hplain : ∀ n ∈ names ++ [name], PlainName n := fun n hn =>
    (List.mem_append.mp hn).elim (h.plain n) fun hn => List.mem_singleton.mp hn ▸ hname
  rw [joinPath, if_neg hhead]
  by_cases hempty : path = ""
  · subst hempty
    have hself : pathMoves name = [.name name] := by
      rw [pathMoves_eq, List.splitOn_eq_singleton hname.2.2.2, List.map_singleton, List.map_singleton,
        String.ofList_toList, segmentStep_of_plain hname]
      rfl
    have hnone : pathMoves "" = [] := by decide
    have hmoves := h.moves
    rw [if_pos (Or.inl rfl), String.empty_append]
    refine ⟨?_, ?_, hplain⟩
    · rw [← h.absolute]
      simp [parsePath, hhead]
    · rw [hself, List.map_append, ← List.append_assoc, ← hmoves, hnone]
      rfl
  · have hne : path.toList ≠ [] := fun hnil => hempty (String.toList_eq_nil_iff.mp hnil)
    have habs : ∀ xs, (parsePath (String.ofList (path.toList ++ xs))).absolute =
        (parsePath dir).absolute := by
      intro xs
      rw [← h.absolute, parsePath, parsePath, String.toList_ofList, List.head?_append_of_ne_nil _ hne]
    by_cases hlast : path.toList.getLast? = some '/'
    · rw [if_pos (Or.inr hlast)]
      obtain ⟨xs, hxs⟩ := List.getLast?_eq_some_iff.mp hlast
      have hlist : path ++ name = String.ofList (path.toList ++ name.toList) := by
        rw [String.ofList_append, String.ofList_toList, String.ofList_toList]
      refine ⟨hlist ▸ habs name.toList, ?_, hplain⟩
      have hpath := moves_slash xs
      rw [← hxs, String.ofList_toList] at hpath
      rw [hlist, hxs, List.append_assoc, List.singleton_append, moves_append hname, ← hpath, h.moves,
        List.map_append, List.append_assoc]
      rfl
    · rw [if_neg (not_or.mpr ⟨hempty, hlast⟩)]
      have hlist : path ++ "/" ++ name = String.ofList (path.toList ++ '/' :: name.toList) := by
        rw [String.ofList_append, String.ofList_toList, ← List.singleton_append, String.ofList_append,
          String.ofList_toList, String.append_assoc]
      refine ⟨hlist ▸ habs _, ?_, hplain⟩
      rw [hlist, moves_append hname, String.ofList_toList, h.moves, List.map_append, List.append_assoc]
      rfl

end HeyoCi
