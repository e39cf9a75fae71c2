import Mathlib.Data.List.DropRight
import Onepass.Proofs.Outcome

/-!
# Onepass.Proofs.Beside

Where the listing of a file goes. Without an output in the arguments its path is that of the source
with another extension, so it is in the directory of the source and has another name, unless the
extension of the source is already that of a listing.

* `exists_sibling`    -- a path and the path with another extension lead to two files beside each
  other.
* `beside_of_run`     -- so a run keeps its source, and the listing is beside it.
* `listing_on_source` -- a source with the extension of a listing is lost.
-/

namespace Onepass
namespace Command

namespace Path

theorem upTo_append_behind (c : Char) (cs : List Char) : upTo c cs ++ behind c cs = cs :=
  List.rdropWhile_append_rtakeWhile

theorem upTo_isPrefix (c : Char) (cs : List Char) : upTo c cs <+: cs := List.rdropWhile_prefix _ _

theorem not_mem_behind (c : Char) (cs : List Char) : c ∉ behind c cs := by
  intro h
  simpa using List.mem_rtakeWhile_imp h

theorem getLast?_upTo {c : Char} {cs : List Char} (h : upTo c cs ≠ []) :
    (upTo c cs).getLast? = some c := by
  have hlast : ¬((upTo c cs).getLast h != c) = true := List.rdropWhile_last_not (· != c) cs h
  rw [List.getLast?_eq_some_getLast h]
  simpa using hlast

theorem behind_snoc (c : Char) (cs more : List Char) (hmore : c ∉ more) :
    behind c (cs ++ c :: more) = more := by
  have hpass : ∀ x ∈ more.reverse, (x != c) = true := by
    intro x hx
    have hne : x ≠ c := by
      rintro rfl
      exact hmore (List.mem_reverse.mp hx)
    simpa using hne
  rw [behind, List.reverse_append, List.reverse_cons, List.append_assoc,
    List.takeWhile_append_of_pos hpass]
  simp

theorem isFront_upTo (path : List Char) : IsFront (upTo '/' path) := by
  by_cases h : upTo '/' path = []
  · exact .inl h
  · exact .inr (getLast?_upTo h)

/-- The extension of a path's name. A dot in front of the name is no part of one. -/
def extension? (path : String) : Option String :=
  let name := behind '/' path.toList
  if isDots name || (upTo '.' name).length ≤ 1 then none else some (String.ofList (behind '.' name))

theorem withDot_isPrefix (name : List Char) : withDot name <+: name := by
  rw [withDot]
  split
  · exact List.prefix_rfl
  · exact upTo_isPrefix _ _

theorem withDot_ne_nil {name : List Char} (h : name ≠ []) : withDot name ≠ [] := by
  rw [withDot]
  split
  · exact h
  · rename_i hlength
    intro hnil
    simp [hnil] at hlength

/-- A name either has no extension, or a dot with something before it. -/
theorem stem_withDot (name : List Char) :
    (upTo '.' name).length ≤ 1 ∧ stem (withDot name) = name ∨
      1 < (upTo '.' name).length ∧ stem (withDot name) = (upTo '.' name).dropLast := by
  by_cases hdot : (upTo '.' name).length ≤ 1
  · left
    rw [withDot, if_pos hdot, stem, if_pos hdot]
    exact ⟨hdot, rfl⟩
  · right
    have hagain : upTo '.' (upTo '.' name) = upTo '.' name := List.rdropWhile_idempotent _ _
    rw [withDot, if_neg hdot, stem, hagain, if_neg hdot]
    exact ⟨Nat.lt_of_not_le hdot, rfl⟩

theorem stem_withDot_isPrefix (name : List Char) : stem (withDot name) <+: name := by
  rcases stem_withDot name with ⟨-, hstem⟩ | ⟨-, hstem⟩
  · simp only [hstem, List.prefix_rfl]
  · rw [hstem]
    exact (List.dropLast_prefix _).trans (upTo_isPrefix _ _)

/-- Another extension makes another name. -/
theorem stem_ne {path ext : String} (hdot : '.' ∉ ext.toList) (hext : extension? path ≠ some ext)
    (hdots : isDots (behind '/' path.toList) = false) :
    stem (withDot (behind '/' path.toList)) ++ '.' :: ext.toList ≠ behind '/' path.toList := by
  intro heq
  rcases stem_withDot (behind '/' path.toList) with ⟨-, hstem⟩ | ⟨hlength, -⟩
  · rw [hstem] at heq
    simp at heq
  · refine hext ?_
    have hbehind := behind_snoc '.' (stem (withDot (behind '/' path.toList))) ext.toList hdot
    rw [heq] at hbehind
    simp [extension?, hdots, Nat.not_le_of_lt hlength, hbehind]

end Path

namespace Disk

open Command.Path

variable {d : Disk} {path : String} {place : List String}

/-- A path that leads to a file, and asks for one, has a name. -/
theorem behind_ne_nil (h : d.locate path = .ok (some place))
    (hfile : asksForDirectory path = false) : behind '/' path.toList ≠ [] := by
  intro hnil
  have hsplit := upTo_append_behind '/' path.toList
  rw [hnil, List.append_nil] at hsplit
  by_cases hempty : upTo '/' path.toList = []
  · rw [hempty] at hsplit
    have hpath : path = "" := String.toList_eq_nil_iff.mp hsplit.symm
    subst hpath
    cases h
  · have hlast := getLast?_upTo hempty
    rw [hsplit] at hlast
    simp [asksForDirectory, hlast] at hfile

theorem isDots_eq_false {name : List Char} (hne : name ≠ [])
    (hproper : IsProperName (String.ofList name)) : isDots name = false := by
  have hdot : name ≠ ['.'] := by
    rintro rfl
    exact hproper.1 rfl
  have hdots : name ≠ ['.', '.'] := by
    rintro rfl
    exact hproper.2 rfl
  simp [isDots, hne, hdot, hdots]

/-- The path of a file and the path with another extension lead to files of one directory that
have different names. -/
theorem exists_sibling {ext : String} (hdot : '.' ∉ ext.toList) (hslash : '/' ∉ ext.toList)
    (hext : extension? path ≠ some ext) {place' : List String}
    (h : d.locate path = .ok (some place)) (hfile : asksForDirectory path = false)
    (h' : d.locate (withExtension ext path) = .ok (some place')) :
    ∃ outer name other, place = outer ++ [name] ∧ place' = outer ++ [other] ∧ name ≠ other := by
  have hfront := isFront_upTo path.toList
  have hno := not_mem_behind '/' path.toList
  have hne := behind_ne_nil h hfile
  have hpath : path = String.ofList (upTo '/' path.toList ++ behind '/' path.toList) := by
    rw [upTo_append_behind, String.ofList_toList]
  rw [hpath] at h
  have hname := isDots_eq_false hne (isProperName_of_locate hfront hne hno h)
  rw [withExtension, hname, if_neg Bool.false_ne_true] at h'
  split at h'
  · -- what is left of the name is no name of a file
    rename_i hcut
    have hno' : '/' ∉ withDot (behind '/' path.toList) :=
      fun hmem => hno ((withDot_isPrefix _).subset hmem)
    have hne' := withDot_ne_nil hne
    rw [isDots_eq_false hne' (isProperName_of_locate hfront hne' hno' h')] at hcut
    cases hcut
  · rw [List.append_assoc] at h'
    have hno' : '/' ∉ stem (withDot (behind '/' path.toList)) ++ '.' :: ext.toList := by
      intro hmem
      rcases List.mem_append.mp hmem with hmem | hmem
      · exact hno ((stem_withDot_isPrefix _).subset hmem)
      · simp [hslash] at hmem
    obtain ⟨outer, rfl, rfl⟩ := locate_sibling hfront hne hno (by simp) hno' h h'
    refine ⟨outer, _, _, rfl, rfl, fun heq => ?_⟩
    exact stem_ne hdot hext hname (String.ofList_injective heq).symm

theorem locate_of_read {text : String} (h : d.read path = .ok text) :
    asksForDirectory path = false ∧ ∃ place, d.locate path = .ok (some place) := by
  rw [read] at h
  split at h
  · cases h
  · cases h
  · rename_i place hplace
    split at h
    · cases h
    split at h
    · cases h
    split at h
    · cases h
    split at h
    · cases h
    · rename_i hfile
      exact ⟨by simpa using hfile, place, hplace⟩

end Disk

namespace Options

variable {o : Options} {lib : Libraries} {setting : Setting} {w : World}

theorem read_of_source {text : String} (hin : o.input ≠ "-")
    (h : o.source setting w = .ok text) : w.disk.read o.input = .ok text := by
  rw [source] at h
  split at h
  · cases h
  · rwa [if_neg hin] at h

/-- A run that has a path to write to either fails and changes no file, or has compiled its source
and changes the file behind the path; unless it fails then, that file holds the listing. -/
theorem outcome_cases {path : String} (hpath : o.destination = some path) :
    (o.outcome lib setting w).1 = 1 ∧ (o.outcome lib setting w).2.disk = w.disk ∨
      ∃ text listing content, o.source setting w = .ok text ∧
        compile (lib.text text) = .ok listing ∧
        w.disk.Changes path content (o.outcome lib setting w).2.disk ∧
        ((o.outcome lib setting w).1 = 0 → content = .text listing.text) := by
  rw [outcome]
  cases htext : o.source setting w with
  | error r => exact .inl ⟨rfl, rfl⟩
  | ok text =>
    dsimp only
    cases hlisting : compile (lib.text text) with
    | error e => exact .inl ⟨rfl, rfl⟩
    | ok listing =>
      dsimp only
      rw [settled, hpath]
      dsimp only
      rw [Setting.write]
      cases hopened : setting.opened w.disk path with
      | error r => exact .inl ⟨rfl, rfl⟩
      | ok place =>
        dsimp only
        cases hbreaking : setting.breaking path with
        | none => exact .inr ⟨text, listing, _, rfl, hlisting, changes_put _ hopened, fun _ => rfl⟩
        | some broken =>
          refine .inr ⟨text, listing, broken.1, rfl, hlisting, changes_put _ hopened, ?_⟩
          intro hzero
          cases hzero

end Options

/-- A run without an output in the arguments, of a source that is a file and has not the extension
of a listing. However it ends, the source is as it was. If it succeeds, the listing is in another
file of the directory of the source, and the other files are as they were. -/
theorem beside_of_run (lib : Libraries) {args : List String} {o : Options}
    (h : lib.request args = .compile o) (hout : o.output = none) (hin : o.input ≠ "-")
    (hext : Path.extension? o.input ≠ some "asm") (setting : Setting) (w : World) :
    (∀ place, w.disk.locate o.input = .ok (some place) →
      (((runWith lib args : Guarded Nat).run setting).run w).2.disk.file? place =
        w.disk.file? place) ∧
    ((((runWith lib args : Guarded Nat).run setting).run w).1 = 0 →
      ∃ outer name other text listing, w.disk.locate o.input = .ok (some (outer ++ [name])) ∧
        name ≠ other ∧ o.source setting w = .ok text ∧
        compile (lib.text text) = .ok listing ∧
        ∀ place, (((runWith lib args : Guarded Nat).run setting).run w).2.disk.file? place =
          if place = outer ++ [other] then some (.text listing.text) else w.disk.file? place) := by
  rw [run_eq h]
  rcases o.outcome_cases (Options.destination_eq_some (.inr ⟨hout, hin, rfl⟩)) with
    ⟨hcode, hdisk⟩ | ⟨text, listing, content, htext, hlisting, ⟨place', hplace', hfiles⟩, hcontent⟩
  · refine ⟨fun place _ => by rw [hdisk], fun hzero => ?_⟩
    rw [hcode] at hzero
    cases hzero
  · obtain ⟨hfile, place, hplace⟩ := Disk.locate_of_read (Options.read_of_source hin htext)
    obtain ⟨outer, name, other, rfl, rfl, hne⟩ :=
      Disk.exists_sibling (by decide) (by decide) hext hplace hfile hplace'
    constructor
    · intro place hlocated
      rw [hplace] at hlocated
      cases hlocated
      rw [hfiles, if_neg]
      intro heq
      exact hne (by simpa using heq)
    · intro hzero
      rw [hcontent hzero] at hfiles
      exact ⟨outer, name, other, text, listing, hplace, hne, htext, hlisting, hfiles⟩

/-- A name with several dots, in a directory where a listing is already. -/
theorem beside_of_dottedName :
    let args := ["src/a.b.lua"]
    let o : Options := ⟨"src/a.b.lua", none, 0⟩
    let w : World := ⟨⟨[(["src", "a.b.lua"], .text "print(1)"),
      (["src", "a.b.asm"], .text "old")]⟩, .text "", "", ""⟩
    let result := ((run args : Guarded Nat).run .free).run w
    Libraries.standard.request args = .compile o ∧ o.output = none ∧ o.input ≠ "-" ∧
      Path.extension? o.input ≠ some "asm" ∧ result.1 = 0 ∧
      result.2.disk.file? ["src", "a.b.lua"] = some (.text "print(1)") ∧
      ∃ outer name other, outer ++ [name] = ["src", "a.b.lua"] ∧ name ≠ other ∧
        ∃ text, result.2.disk.file? (outer ++ [other]) = some (.text text) := by
  intro args o w result
  have hargs : Libraries.standard.request args = .compile o := by decide
  have hext : Path.extension? o.input ≠ some "asm" := by decide +kernel
  have hin : o.input ≠ "-" := by decide
  have hplace : w.disk.locate o.input = .ok (some ["src", "a.b.lua"]) := by decide +kernel
  have hcode : result.1 = 0 := by decide +kernel
  obtain ⟨hkept, hbeside⟩ := beside_of_run .standard hargs rfl hin hext .free w
  refine ⟨hargs, rfl, hin, hext, hcode, ?_, ?_⟩
  · exact (hkept _ hplace).trans (by decide)
  · obtain ⟨outer, name, other, text, listing, hlocated, hne, -, -, hfiles⟩ := hbeside hcode
    have hnames : outer ++ [name] = ["src", "a.b.lua"] := by
      rw [hplace] at hlocated
      simpa using hlocated.symm
    exact ⟨outer, name, other, hnames, hne, listing.text, (hfiles _).trans (if_pos rfl)⟩

/-- A source with the extension of a listing: the listing takes its place. -/
theorem listing_on_source :
    let args := ["a.asm"]
    let o : Options := ⟨"a.asm", none, 0⟩
    let w : World := ⟨⟨[(["a.asm"], .text "print(1)")]⟩, .text "", "", ""⟩
    let result := ((run args : Guarded Nat).run .free).run w
    Request.ofArgs args = .compile o ∧ o.output = none ∧ o.input ≠ "-" ∧
      w.disk.locate o.input = .ok (some ["a.asm"]) ∧ result.1 = 0 ∧
      result.2.disk.file? ["a.asm"] ≠ w.disk.file? ["a.asm"] ∧
      result.2.disk.files.length = 1 := by
  decide +kernel

end Command
end Onepass
