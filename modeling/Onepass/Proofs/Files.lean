import Mathlib.Data.List.Basic
import Onepass.Command.Sandbox

/-!
# Onepass.Proofs.Files

The files of the sandbox. What is put in a file is in that file, and every other file is what it was
(`file?_put`). The file opened for writing is the one that the path leads to (`locate_of_opened`).

Paths that differ in their last names alone lead to different files of one directory
(`locate_sibling`).
-/

namespace Onepass
namespace Command

namespace Disk

variable {d : Disk} {place other : List String}

theorem lookup_filter_ne (files : List (List String × Content)) (h : other ≠ place) :
    (files.filter fun (file, _) => file ≠ place).lookup other = files.lookup other := by
  induction files with
  | nil => rfl
  | cons f files ih =>
    obtain ⟨file, content⟩ := f
    by_cases hfile : file = place
    · subst hfile
      have hb : (other == file) = false := by simpa using h
      simpa [List.lookup_cons, hb] using ih
    · simp only [hfile, ne_eq, not_false_iff, decide_true, List.filter_cons_of_pos,
        List.lookup_cons]
      rw [ih]

theorem file?_put (d : Disk) (place other : List String) (content : Content) :
    (d.put place content).file? other = if other = place then some content else d.file? other := by
  by_cases h : other = place
  · simp [file?, put, h]
  · have hb : (other == place) = false := by simpa using h
    rw [file?, put, List.lookup_cons, hb, if_neg h]
    exact lookup_filter_ne d.files h

theorem locate_of_opened {path : String} (h : d.opened path = .ok place) :
    d.locate path = .ok (some place) := by
  rw [opened] at h
  split at h
  · cases h
  · cases h
  · rename_i found hfound
    split at h
    · cases h
    split at h
    · cases h
    split at h
    · cases h
    cases h
    exact hfound

/-- A name by which a directory is not left where it is or gone up from. -/
def IsProperName (name : String) : Prop := name ≠ "." ∧ name ≠ ".."

theorem follow_name (d : Disk) (dir : List String) {name : String} (h : IsProperName name) :
    d.follow dir [name] = .ok (some (dir ++ [name])) := by
  rw [follow]
  · rfl
  · exact h.1
  · exact h.2

/-- On a way of several names, the first is that of a directory. -/
theorem follow_cons (d : Disk) (dir : List String) {name : String} (h : IsProperName name)
    {rest : List String} (hrest : rest ≠ []) :
    d.follow dir (name :: rest) =
      if !nameFits name then .error .nameTooLong
      else if d.isDirectory (dir ++ [name]) then d.follow (dir ++ [name]) rest
      else if (d.file? (dir ++ [name])).isSome then .error .notDirectory
      else .error .notFound := by
  rw [follow]
  · rw [if_neg (by simpa using hrest)]
  · exact h.1
  · exact h.2

/-- Names that lead to a file end in its name, and with another last name they lead to another file
of its directory. -/
theorem follow_eq_some {names dir : List String}
    (h : d.follow dir names = .ok (some place)) :
    ∃ front name outer, names = front ++ [name] ∧ IsProperName name ∧ place = outer ++ [name] ∧
      ∀ other, IsProperName other →
        d.follow dir (front ++ [other]) = .ok (some (outer ++ [other])) := by
  induction names generalizing dir with
  | nil => cases h
  | cons x names ih =>
    by_cases hdot : x = "."
    · subst hdot
      obtain ⟨front, name, outer, rfl, hname, hplace, hothers⟩ := ih h
      exact ⟨"." :: front, name, outer, rfl, hname, hplace, hothers⟩
    by_cases hdots : x = ".."
    · subst hdots
      obtain ⟨front, name, outer, rfl, hname, hplace, hothers⟩ := ih h
      exact ⟨".." :: front, name, outer, rfl, hname, hplace, hothers⟩
    have hx : IsProperName x := ⟨hdot, hdots⟩
    by_cases hnames : names = []
    · subst hnames
      rw [follow_name d dir hx] at h
      cases h
      exact ⟨[], x, dir, rfl, hx, rfl, fun other hother => follow_name d dir hother⟩
    · rw [follow_cons d dir hx hnames] at h
      split at h
      · cases h
      rename_i hfits
      split at h
      · rename_i hdir
        obtain ⟨front, name, outer, rfl, hname, hplace, hothers⟩ := ih h
        refine ⟨x :: front, name, outer, rfl, hname, hplace, fun other hother => ?_⟩
        have hne : front ++ [other] ≠ [] := by simp
        rw [List.cons_append, follow_cons d dir hx hne, if_neg hfits, if_pos hdir]
        exact hothers other hother
      split at h
      · cases h
      · cases h

end Disk

namespace Path

/-- The front of a path up to a name: nothing, or something that a slash ends. -/
def IsFront (dir : List Char) : Prop := dir = [] ∨ dir.getLast? = some '/'

theorem IsFront.tail {c : Char} {dir : List Char} (h : IsFront (c :: dir)) : IsFront dir := by
  rcases h with h | h
  · cases h
  · cases dir with
    | nil => exact .inl rfl
    | cons c' dir => exact .inr (by simpa using h)

theorem pieces_name {name : List Char} (h : '/' ∉ name) : pieces name = [name] := by
  induction name with
  | nil => rfl
  | cons c name ih =>
    rw [List.mem_cons, not_or] at h
    rw [pieces, if_neg (Ne.symm h.1), ih h.2]

/-- Behind a front, a name without slashes is a piece of its own. -/
theorem exists_pieces {dir : List Char} (h : IsFront dir) :
    ∃ ps, (dir ≠ [] → ps ≠ []) ∧ ∀ name, '/' ∉ name → pieces (dir ++ name) = ps ++ [name] := by
  induction dir with
  | nil => exact ⟨[], by simp, fun name hname => pieces_name hname⟩
  | cons c dir ih =>
    obtain ⟨ps, hne, hps⟩ := ih h.tail
    by_cases hc : c = '/'
    · refine ⟨[] :: ps, by simp, fun name hname => ?_⟩
      rw [List.cons_append, pieces, if_pos hc, hps name hname]
      rfl
    · -- no slash yet, so there is one behind and the character belongs to an earlier piece
      have hdir : dir ≠ [] := by
        rintro rfl
        rcases h with h | h
        · cases h
        · exact hc (by simpa using h)
      obtain ⟨p, rest, rfl⟩ := List.exists_cons_of_ne_nil (hne hdir)
      refine ⟨(c :: p) :: rest, by simp, fun name hname => ?_⟩
      rw [List.cons_append, pieces, if_neg hc, hps name hname]
      rfl

/-- The last of the names on the way is what stands behind the front. -/
theorem exists_parts {dir : List Char} (h : IsFront dir) :
    ∃ names, ∀ name, name ≠ [] → '/' ∉ name →
      parts (String.ofList (dir ++ name)) = names ++ [String.ofList name] := by
  obtain ⟨ps, -, hps⟩ := exists_pieces h
  refine ⟨(ps.filter fun p => !p.isEmpty).map String.ofList, fun name hne hname => ?_⟩
  rw [parts, String.toList_ofList, hps name hname]
  simp [List.filter_append, hne]

end Path

namespace Disk

open Command.Path

variable {d : Disk}

/-- Whether a path starts at the root does not hang on its name. -/
theorem head?_name {dir name : List Char} (hname : '/' ∉ name) :
    (dir ++ name).head? = some '/' ↔ dir.head? = some '/' := by
  cases dir with
  | nil =>
    simp only [List.nil_append, List.head?_nil, reduceCtorEq, iff_false]
    intro h
    exact hname (List.mem_of_mem_head? h)
  | cons c dir => rfl

/-- A path is followed from the same directory, whatever its name. -/
theorem exists_follow (d : Disk) {dir : List Char} (hdir : IsFront dir) :
    ∃ start names, ∀ name place, name ≠ [] → '/' ∉ name →
      d.locate (String.ofList (dir ++ name)) = .ok (some place) →
      d.follow start (names ++ [String.ofList name]) = .ok (some place) := by
  obtain ⟨names, hparts⟩ := exists_parts hdir
  refine ⟨if dir.head? = some '/' then root else [], names, ?_⟩
  intro name place hne hname h
  rw [locate] at h
  split at h
  · cases h
  split at h
  · cases h
  rw [hparts name hne hname, String.toList_ofList] at h
  simpa only [head?_name hname] using h

/-- The name of the path is the name of the file. -/
theorem isProperName_of_locate {dir name : List Char} (hdir : IsFront dir) (hne : name ≠ [])
    (hname : '/' ∉ name) {place : List String}
    (h : d.locate (String.ofList (dir ++ name)) = .ok (some place)) :
    IsProperName (String.ofList name) := by
  obtain ⟨start, names, hfollow⟩ := exists_follow d hdir
  obtain ⟨front, last, -, hnames, hlast, -⟩ := follow_eq_some (hfollow name place hne hname h)
  obtain ⟨-, hlast'⟩ := List.append_inj' hnames rfl
  cases hlast'
  exact hlast

/-- Two paths that differ in their names lead to two files of one directory. -/
theorem locate_sibling {dir name other : List Char} (hdir : IsFront dir)
    (hne : name ≠ []) (hname : '/' ∉ name) (hne' : other ≠ []) (hother : '/' ∉ other)
    {place place' : List String} (h : d.locate (String.ofList (dir ++ name)) = .ok (some place))
    (h' : d.locate (String.ofList (dir ++ other)) = .ok (some place')) :
    ∃ outer, place = outer ++ [String.ofList name] ∧ place' = outer ++ [String.ofList other] := by
  obtain ⟨start, names, hfollow⟩ := exists_follow d hdir
  obtain ⟨front, last, outer, hnames, -, rfl, hothers⟩ :=
    follow_eq_some (hfollow name place hne hname h)
  obtain ⟨front', last', -, hnames', hlast', -⟩ :=
    follow_eq_some (hfollow other place' hne' hother h')
  obtain ⟨rfl, hlast⟩ := List.append_inj' hnames rfl
  obtain ⟨-, hlast''⟩ := List.append_inj' hnames' rfl
  cases hlast
  cases hlast''
  have hplace := hothers _ hlast'
  rw [hfollow other place' hne' hother h'] at hplace
  cases hplace
  exact ⟨outer, rfl, rfl⟩

end Disk
end Command
end Onepass
