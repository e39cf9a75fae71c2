import Onepass.Proofs.Commented
import Onepass.Proofs.Joining

/-!
# Onepass.Proofs.Stripping

What the removal of comments leaves of a text, said without the zones that the filter goes
through. Text is quoted behind an odd number of quotation marks, those in comments not counted,
and a comment begins with two dashes that are not quoted.

* `zoneAfter_eq_quoted_iff` -- the filter is in a string where the text is quoted.
* `plain_stripFrom`         -- no comment begins in what is left.
* `stripFrom_insert`        -- a comment more, in front of a line end, leaves the same.
* `strip_of_source`         -- so nothing is left to be removed, and comments can be added anywhere
  at the end of a line without a difference to the compiler.
-/

namespace Onepass
namespace Comment

/-- The number of quotation marks, `n` of them in front of the text. Those in comments do not
count; a comment begins with two dashes that are not quoted and goes up to the end of its line. -/
def marks (n : Nat) : List Char → Nat
  | [] => n
  | c :: cs =>
    if c = '"' then marks (n + 1) cs
    else if c = '-' ∧ cs.head? = some '-' ∧ n % 2 = 0 then
      have := length_dropWhile_le (· != '\n') cs
      marks n (cs.dropWhile (· != '\n'))
    else marks n cs
termination_by cs => cs.length

/-- What comes behind the text is quoted. -/
def Quoted (front : List Char) : Prop := marks 0 front % 2 = 1

/-- No comment begins in the text. -/
def Uncommented (cs : List Char) : Prop :=
  ∀ front rest, cs = front ++ '-' :: '-' :: rest → Quoted front

/-! ## Quotation marks -/

/-- A comment that the text does not end goes on, and no string is open in it. -/
theorem zoneAfter_comment (cs : List Char) :
    zoneAfter .comment cs = .quoted ↔ zoneAfter .code (cs.dropWhile (· != '\n')) = .quoted := by
  induction cs with
  | nil => simp [zoneAfter]
  | cons c cs ih =>
    by_cases hc : c = '\n'
    · simp [zoneAfter, Zone.step, hc]
    · simpa [zoneAfter, Zone.step, hc] using ih

/-- The filter tells by its zone whether the number of marks is odd. -/
theorem zoneAfter_of_marks (n : Nat) (cs : List Char) :
    zoneAfter (if n % 2 = 0 then .code else .quoted) cs = .quoted ↔ marks n cs % 2 = 1 := by
  fun_induction marks n cs with
  | case1 n =>
    rw [zoneAfter]
    split <;> simp <;> omega
  | case2 n cs ih =>
    rw [zoneAfter, ← ih]
    have hstep : Zone.step (if n % 2 = 0 then .code else .quoted) '"' cs.head? =
        if (n + 1) % 2 = 0 then .code else .quoted := by
      rcases Nat.mod_two_eq_zero_or_one n with hn | hn
      · simp [Zone.step, hn, Nat.add_mod]
      · simp [Zone.step, hn, Nat.add_mod]
    rw [hstep]
  | case3 n c cs hquote hdashes hle ih =>
    obtain ⟨rfl, hhead, hn⟩ := hdashes
    rw [← ih, if_pos hn, zoneAfter, ← zoneAfter_comment]
    simp [Zone.step, hhead]
  | case4 n c cs hquote hdashes ih =>
    rw [← ih, zoneAfter]
    have hstep : Zone.step (if n % 2 = 0 then .code else .quoted) c cs.head? =
        if n % 2 = 0 then .code else .quoted := by
      split
      · rename_i hn
        have hcode : ¬ (c = '-' ∧ cs.head? = some '-') := fun h => hdashes ⟨h.1, h.2, hn⟩
        rw [Zone.step, if_neg hquote, if_neg hcode]
      · rw [Zone.step, if_neg hquote]
    rw [hstep]

/-- The filter is in a string where the text is quoted. -/
theorem zoneAfter_eq_quoted_iff (front : List Char) :
    zoneAfter .code front = .quoted ↔ Quoted front := zoneAfter_of_marks 0 front

/-! ## Texts without comments -/

/-- No comment begins in a text that itself begins in the zone. -/
def Plain : Zone → List Char → Prop
  | _, [] => True
  | zone, c :: cs => zone.step c cs.head? ≠ .comment ∧ Plain (zone.step c cs.head?) cs

theorem stripFrom_of_plain {zone : Zone} {cs : List Char} (h : Plain zone cs) :
    stripFrom zone cs = cs := by
  induction cs generalizing zone with
  | nil => cases zone <;> rfl
  | cons c cs ih => rw [stripFrom_step, if_neg h.1, ih h.2]

/-- Where no comment begins, the character behind makes no difference. -/
theorem step_of_ne_comment {zone : Zone} {c : Char} {next : Option Char}
    (h : zone.step c next ≠ .comment) : zone.step c none = zone.step c next := by
  cases zone with
  | code =>
    simp only [Zone.step] at h ⊢
    split
    · rfl
    · simp_all
  | quoted | comment => rfl

/-- Two dashes stand in a plain text only where it is quoted. -/
theorem plain_iff {zone : Zone} (hzone : zone ≠ .comment) {cs : List Char} :
    Plain zone cs ↔
      ∀ front rest, cs = front ++ '-' :: '-' :: rest → zoneAfter zone front = .quoted := by
  induction cs generalizing zone with
  | nil => simp [Plain]
  | cons c cs ih =>
    have hsteps (front : List Char) (rest : List Char) (hcs : cs = front ++ '-' :: '-' :: rest)
        (hstep : zone.step c cs.head? ≠ .comment) :
        zone.step c front.head? = zone.step c cs.head? := by
      cases front with
      | nil => exact step_of_ne_comment hstep
      | cons d front => rw [hcs]; rfl
    constructor
    · rintro ⟨hstep, hplain⟩ front rest hcs
      cases front with
      | nil =>
        obtain ⟨rfl, rfl⟩ := List.cons.inj hcs
        cases zone with
        | code => exact absurd rfl hstep
        | quoted => rfl
        | comment => exact absurd rfl hzone
      | cons d front =>
        obtain ⟨rfl, htail⟩ := List.cons.inj hcs
        rw [zoneAfter, hsteps front rest htail hstep]
        exact (ih hstep).mp hplain front rest htail
    · intro h
      have hstep : zone.step c cs.head? ≠ .comment := by
        intro hcomment
        cases zone with
        | code =>
          simp only [Zone.step] at hcomment
          split at hcomment
          · cases hcomment
          split at hcomment
          · rename_i hdashes
            obtain ⟨rest, hrest⟩ := List.head?_eq_some_iff.mp hdashes.2
            cases h [] rest (by rw [hdashes.1, hrest]; rfl)
          · cases hcomment
        | quoted =>
          simp only [Zone.step] at hcomment
          split at hcomment <;> cases hcomment
        | comment => exact hzone rfl
      refine ⟨hstep, (ih hstep).mpr fun front rest hcs => ?_⟩
      have := h (c :: front) rest (by rw [hcs]; rfl)
      rwa [zoneAfter, hsteps front rest hcs hstep] at this

theorem uncommented_iff {cs : List Char} : Uncommented cs ↔ Plain .code cs := by
  rw [plain_iff (by decide)]
  exact forall₂_congr fun front rest =>
    imp_congr_right fun _ => (zoneAfter_eq_quoted_iff front).symm

/-! ## What is left -/

/-- A character that stays is followed in what is left by what followed it, or by the line end
behind a comment. -/
theorem step_stripFrom {zone : Zone} {c : Char} {cs : List Char}
    (h : zone.step c cs.head? ≠ .comment) :
    zone.step c (stripFrom (zone.step c cs.head?) cs).head? = zone.step c cs.head? := by
  cases zone with
  | code =>
    simp only [Zone.step] at h ⊢
    split
    · rfl
    rename_i hquote
    have hdashes : ¬ (c = '-' ∧ cs.head? = some '-') := by
      intro hdashes
      rw [if_neg hquote, if_pos hdashes] at h
      exact h rfl
    rw [if_neg hdashes, if_neg]
    rintro ⟨hdash, hhead⟩
    rw [head?_stripFrom] at hhead
    rcases Commented.skipComment_cases cs with hsame | hline
    · exact hdashes ⟨hdash, hsame ▸ hhead⟩
    · cases hline _ hhead
  | quoted | comment => rfl

/-- No comment begins in what is left. Behind a comment that is open at the front, the text is
code. -/
theorem plain_stripFrom (zone : Zone) (cs : List Char) :
    Plain (if zone = .comment then .code else zone) (stripFrom zone cs) := by
  induction cs generalizing zone with
  | nil => cases zone <;> trivial
  | cons c cs ih =>
    have hcs := ih (zone.step c cs.head?)
    rw [stripFrom_step]
    by_cases hstep : zone.step c cs.head? = .comment
    · rw [if_pos hstep, hstep]
      rw [hstep, if_pos rfl] at hcs
      -- Only code and a comment are followed by a comment.
      cases zone with
      | code | comment => exact hcs
      | quoted =>
        simp only [Zone.step] at hstep
        split at hstep <;> cases hstep
    · rw [if_neg hstep]
      rw [if_neg hstep] at hcs
      have hfront : Zone.step (if zone = .comment then .code else zone) c
          (stripFrom (zone.step c cs.head?) cs).head? = zone.step c cs.head? := by
        cases zone with
        | code | quoted => exact step_stripFrom hstep
        | comment =>
          have hc : c = '\n' := by
            by_contra hc
            exact hstep (if_neg hc)
          simp [Zone.step, hc]
      refine ⟨?_, ?_⟩
      · rw [hfront]
        exact hstep
      · rw [hfront]
        exact hcs

/-- In front of a line end that is not quoted, a comment more leaves the same. -/
theorem stripFrom_insert {front rest comment : List Char}
    (hrest : ∀ c ∈ rest.head?, c = '\n') (hfront : ¬ Quoted front)
    (hdash : front.getLast? ≠ some '-') (hcomment : '\n' ∉ comment) :
    stripFrom .code (front ++ '-' :: '-' :: (comment ++ rest)) =
      stripFrom .code (front ++ rest) := by
  have hopen : stripFrom .comment (comment ++ rest) = stripFrom .code rest := by
    have hline : rest.dropWhile (· != '\n') = rest := by
      cases rest with
      | nil => rfl
      | cons c rest => rw [hrest c rfl]; rfl
    rw [stripFrom_comment, List.dropWhile_append_of_pos, hline]
    intro c hc
    have hne : c ≠ '\n' := fun h => hcomment (h ▸ hc)
    simpa using hne
  have hclosed : stripFrom .comment rest = stripFrom .code rest := by
    cases rest with
    | nil => rfl
    | cons c rest => rw [hrest c rfl]; rfl
  rw [stripFrom_append hdash, stripFrom_append hdash]
  congr 1
  cases hzone : zoneAfter .code front with
  | code => simpa [stripFrom] using hopen
  | quoted => exact absurd ((zoneAfter_eq_quoted_iff front).mp hzone) hfront
  | comment => simpa [stripFrom, hclosed] using hopen

end Comment

open Comment

/-- The compiler knows of a text what is left of it without its comments. -/
theorem Compiler.compile_congr (c : Compiler) {source source' : String}
    (h : strip source = strip source') : c.compile source = c.compile source' := by
  simp only [compile, Source.parse, Source.feed, h]

/-- Comments are removed once and for all: what is left of a text has as many line ends, no comment
begins in it, and it stays as it is if its comments are removed. A text in which no comment begins
is left as it is. And before a line end, or at the end of the text, where it is not quoted and no
dash stands in front, a comment can be put in: what is left is the same, and so is what the
compiler makes of it. -/
theorem strip_of_source (source : String) (c : Compiler) :
    strip (strip source) = strip source ∧
    (strip source).toList.count '\n' = source.toList.count '\n' ∧
    Uncommented (strip source).toList ∧
    (Uncommented source.toList → strip source = source) ∧
    ∀ front rest comment : String, source = front ++ rest →
      (rest = "" ∨ rest.toList.head? = some '\n') → ¬ Quoted front.toList →
      front.toList.getLast? ≠ some '-' → '\n' ∉ comment.toList →
      strip (front ++ "--" ++ comment ++ rest) = strip source ∧
        c.compile (front ++ "--" ++ comment ++ rest) = c.compile source := by
  have hplain : Plain .code (strip source).toList := by
    rw [toList_strip]
    exact plain_stripFrom .code source.toList
  have hleft {text : String} (h : Plain .code text.toList) : strip text = text := by
    rw [strip, stripFrom_of_plain h, String.ofList_toList]
  refine ⟨hleft hplain, ?_, uncommented_iff.mpr hplain, fun h => hleft (uncommented_iff.mp h), ?_⟩
  · rw [toList_strip, count_stripFrom]
  · rintro front rest comment rfl hrest hfront hdash hcomment
    have hline : ∀ d ∈ rest.toList.head?, d = '\n' := by
      rintro d hd
      rcases hrest with rfl | hhead
      · cases hd
      · rw [hhead] at hd
        exact (Option.some.inj hd).symm
    have hsame : strip (front ++ "--" ++ comment ++ rest) = strip (front ++ rest) := by
      have hinsert := stripFrom_insert hline hfront hdash hcomment
      simp only [strip, String.toList_append, show "--".toList = ['-', '-'] from rfl]
      rw [← hinsert]
      simp
    exact ⟨hsame, c.compile_congr hsame⟩

/-- Dashes stay in a string, and a quotation mark in a comment opens none. -/
theorem strip_of_quotedDashes :
    ¬ Quoted "print(\"--\")".toList ∧
    strip ("print(\"--\")" ++ "--" ++ " \"" ++ "\n") = strip "print(\"--\")\n" ∧
    strip "print(\"--\")\n" = "print(\"--\")\n" :=
  have hquoted : ¬ Quoted "print(\"--\")".toList :=
    mt (zoneAfter_eq_quoted_iff _).mpr (by decide)
  have h := strip_of_source "print(\"--\")\n" .new
  have hinsert := h.2.2.2.2 "print(\"--\")" "\n" " \"" rfl (.inr rfl) hquoted (by decide)
    (by decide)
  ⟨hquoted, hinsert.1, by decide⟩

end Onepass
