/-!
# Message templates

A template is text with placeholders `{name}`. A doubled brace stands for the brace itself,
and a placeholder that is not closed for its own text.
-/

namespace Typestate.Text

/-- Fills the placeholders of a template. Fails at the first name without a value. -/
def fill {ε : Type} (value : String → Except ε String) : (template : List Char) →
    Except ε (List Char)
  | [] => .ok []
  | '\x7b' :: '\x7b' :: rest => ('\x7b' :: ·) <$> fill value rest
  | '\x7d' :: '\x7d' :: rest => ('\x7d' :: ·) <$> fill value rest
  | '\x7b' :: rest =>
    if '\x7d' ∈ rest then do
      let text ← value (String.ofList (rest.takeWhile (· ≠ '\x7d')))
      let after ← fill value ((rest.dropWhile (· ≠ '\x7d')).drop 1)
      return text.toList ++ after
    else .ok ('\x7b' :: rest)
  | c :: rest => (c :: ·) <$> fill value rest
termination_by template => template.length
decreasing_by
  · simp only [List.length_cons]; omega
  · simp only [List.length_cons]; omega
  · have h := (List.dropWhile_suffix (l := rest) (· ≠ '\x7d')).length_le
    simp only [List.length_drop, List.length_cons]
    omega
  · simp only [List.length_cons]; omega

/-- The text of a template with its placeholders filled. -/
def fillText {ε : Type} (value : String → Except ε String) (template : String) :
    Except ε String :=
  String.ofList <$> fill value template.toList

end Typestate.Text
