/-!
# Onepass.Comment

A comment begins with two dashes outside a quoted stretch and goes up to the end of its line,
which stays, since line ends close statements. `strip` removes the comments of a text and
nothing else; so a text and what is left of it have the same lines (`count_stripFrom`).
-/

namespace Onepass
namespace Comment

/-- What the next character of the text belongs to. -/
inductive Zone where
  | code
  | quoted
  | comment
  deriving DecidableEq, Repr

/-- What is left of a text that begins in the given zone. -/
def stripFrom : Zone → List Char → List Char
  | _, [] => []
  | .comment, c :: rest =>
    if c = '\n' then c :: stripFrom .code rest else stripFrom .comment rest
  | .quoted, c :: rest =>
    c :: stripFrom (if c = '"' then .code else .quoted) rest
  | .code, c :: rest =>
    if c = '"' then c :: stripFrom .quoted rest
    else if c = '-' ∧ rest.head? = some '-' then stripFrom .comment rest
    else c :: stripFrom .code rest

theorem count_stripFrom (zone : Zone) (cs : List Char) :
    (stripFrom zone cs).count '\n' = cs.count '\n' := by
  induction cs generalizing zone with
  | nil => cases zone <;> rfl
  | cons c rest ih =>
    cases zone with
    | code =>
      simp only [stripFrom]
      split
      · simp [List.count_cons, ih]
      split
      · rename_i h
        simp [ih, h.1]
      · simp [List.count_cons, ih]
    | quoted => simp [stripFrom, List.count_cons, ih]
    | comment =>
      simp only [stripFrom]
      split <;> rename_i h <;> simp [ih, h]

/-- The text without its comments. -/
def strip (source : String) : String := String.ofList (stripFrom .code source.toList)

end Comment
end Onepass
