import Typestate.Automaton.Action

/-!
# Writing templates

A message made of texts and placeholders is written as a template by doubling the braces of its
texts. Filling that template gives the message: the texts as they are and the values in place of the
placeholders, or the first name that has no value. Where a text ends and a placeholder starts, the
braces of both stand side by side; they are told apart because a text ends after a doubled brace.
-/
namespace Typestate.Text

/-- A part of a message. -/
inductive Segment
  | literal (text : String)
  | placeholder (name : String)
  deriving DecidableEq, Repr

def isBrace (c : Char) : Bool := c = '\x7b' || c = '\x7d'

def doubled (text : List Char) : List Char :=
  text.flatMap fun c => if isBrace c then [c, c] else [c]

namespace Segment

def written : Segment → List Char
  | literal text => doubled text.toList
  | placeholder name => '\x7b' :: (name.toList ++ ['\x7d'])

/-- Whether a segment can be told from what is written around it. The name of a placeholder ends at
the first closing brace, and does not start with the second half of a doubled brace. -/
def IsWritable : Segment → Prop
  | literal _ => True
  | placeholder name => '\x7d' ∉ name.toList ∧ name.toList.head? ≠ some '\x7b'

instance : (s : Segment) → Decidable s.IsWritable
  | literal _ => inferInstanceAs (Decidable True)
  | placeholder _ => inferInstanceAs (Decidable (_ ∧ _))

def name? : Segment → Option String
  | literal _ => none
  | placeholder name => some name

/-- What a segment says, given the values of names. -/
def text {ε : Type} (value : String → Except ε String) : Segment → Except ε String
  | literal text => .ok text
  | placeholder name => value name

/-- What a segment shows of bindings, if they bind its name. -/
def shown (b : Bindings) : Segment → String
  | literal text => text
  | placeholder name => ((b.get? name).map Expr.render).getD ""

end Segment

/-- The template of a message. -/
def template (l : List Segment) : String := String.ofList (l.flatMap Segment.written)

/-- The names of the placeholders of a message, in order. -/
def names (l : List Segment) : List String := l.filterMap Segment.name?

variable {ε : Type} {value : String → Except ε String} {c : Char} {name rest : List Char}
  {l : List Segment}

@[simp] theorem fill_nil : fill value [] = .ok [] := by rw [fill]

theorem fill_doubled_brace (h : isBrace c) :
    fill value (c :: c :: rest) = (c :: ·) <$> fill value rest := by
  rcases Bool.or_eq_true_iff.1 h with h | h <;> rw [of_decide_eq_true h, fill]

theorem fill_cons_of_not_isBrace (h : ¬ isBrace c) :
    fill value (c :: rest) = (c :: ·) <$> fill value rest := by
  simp only [isBrace, Bool.or_eq_true, decide_eq_true_eq, not_or] at h
  rw [fill.eq_5]
  · exact fun _ hc _ => h.1 hc
  · exact fun _ hc _ => h.2 hc
  · exact h.1

theorem fill_doubled_append (text : List Char) :
    fill value (doubled text ++ rest) = (text ++ ·) <$> fill value rest := by
  induction text with
  | nil => simp [doubled]
  | cons c text ih =>
    have hsplit : doubled (c :: text) = (if isBrace c then [c, c] else [c]) ++ doubled text := rfl
    have hcons : fill value (doubled (c :: text) ++ rest) =
        (c :: ·) <$> fill value (doubled text ++ rest) := by
      rw [hsplit]
      split
      · rename_i h
        exact fill_doubled_brace h
      · rename_i h
        exact fill_cons_of_not_isBrace h
    rw [hcons, ih]
    simp

theorem fill_placeholder_append (hclose : '\x7d' ∉ name) (hopen : name.head? ≠ some '\x7b') :
    fill value ('\x7b' :: (name ++ '\x7d' :: rest)) = do
      let text ← value (String.ofList name)
      let after ← fill value rest
      return text.toList ++ after := by
  have hbefore : ∀ c ∈ name, decide (c ≠ '\x7d') = true := by
    intro c hc
    rw [decide_eq_true_eq]
    rintro rfl
    exact hclose hc
  rw [fill.eq_4, if_pos (by simp), List.takeWhile_append_of_pos hbefore,
    List.dropWhile_append_of_pos hbefore]
  · simp
  · intro after hafter
    cases name with
    | nil => cases hafter
    | cons c name =>
      obtain rfl : c = '\x7b' := (List.cons.inj hafter).1
      exact hopen rfl

/-- A template is filled segment after segment. -/
theorem fill_template (hl : ∀ s ∈ l, s.IsWritable) :
    fill value (l.flatMap Segment.written) =
      (fun texts => texts.flatMap String.toList) <$> l.mapM (Segment.text value) := by
  induction l with
  | nil => simp; rfl
  | cons s l ih =>
    obtain ⟨hs, hrest⟩ := List.forall_mem_cons.1 hl
    rw [List.flatMap_cons, List.mapM_cons]
    cases s with
    | literal text =>
      rw [Segment.written, fill_doubled_append, ih hrest, Segment.text]
      cases l.mapM (Segment.text value) <;> rfl
    | placeholder name =>
      rw [Segment.written, List.cons_append, List.append_assoc, List.singleton_append,
        fill_placeholder_append hs.1 hs.2, ih hrest, String.ofList_toList, Segment.text]
      cases value name <;> cases l.mapM (Segment.text value) <;> rfl

theorem mapM_text_bindings (b : Bindings) (l : List Segment) :
    l.mapM (Segment.text b.text) =
      match (names l).find? (!b.contains ·) with
      | none => .ok (l.map (·.shown b))
      | some name => .error (.unknownBinding name) := by
  induction l with
  | nil => rfl
  | cons s l ih =>
    rw [List.mapM_cons, ih]
    cases s with
    | literal text =>
      rw [show names (.literal text :: l) = names l from rfl]
      cases (names l).find? (!b.contains ·) <;> rfl
    | placeholder name =>
      rw [show names (.placeholder name :: l) = name :: names l from rfl, List.find?_cons]
      cases hname : b.get? name with
      | none =>
        have hfirst : (!SortedMap.contains b name) = true := by simp [SortedMap.contains, hname]
        rw [hfirst, Segment.text, Bindings.text, hname]
        rfl
      | some e =>
        have hfirst : (!SortedMap.contains b name) = false := by simp [SortedMap.contains, hname]
        have hshown : (Segment.placeholder name).shown b = e.render := by
          simp [Segment.shown, hname]
        rw [hfirst, Segment.text, Bindings.text, hname, List.map_cons, hshown]
        cases (names l).find? (!b.contains ·) <;> rfl

end Typestate.Text

namespace Typestate.ActionM

open Text

theorem run_format (view : ActionView) (effects : Effects) (t : String) :
    ((format t).run view).run.run effects = (fillText view.bindings.text t, effects) := by
  have hread : ((format t).run view).run.run effects =
      ((MonadExcept.ofExcept (fillText view.bindings.text t) : ActionM String).run view).run.run
        effects := rfl
  rw [hread]
  cases fillText view.bindings.text t <;> rfl

/-- An action that formats the template of a message gets the message, with the bound expressions in
place of the names, or fails at the first name that is not bound. So a text with doubled braces
stands for itself. -/
theorem format_template {l : List Segment} (hl : ∀ s ∈ l, s.IsWritable) (view : ActionView)
    (effects : Effects) :
    ((format (template l)).run view).run.run effects =
      (match (names l).find? (!view.bindings.contains ·) with
        | none => .ok (String.join (l.map (·.shown view.bindings)))
        | some name => .error (.unknownBinding name), effects) ∧
    ∀ text : String,
      ((format (String.ofList (doubled text.toList))).run view).run.run effects =
        (.ok text, effects) := by
  constructor
  · rw [run_format, fillText, template, String.toList_ofList, fill_template hl,
      mapM_text_bindings]
    cases (names l).find? (!view.bindings.contains ·) with
    | none =>
      refine congrArg (·, effects) (congrArg Except.ok ?_)
      dsimp only
      rw [← String.toList_join, String.ofList_toList]
    | some name => rfl
  · intro text
    have hfill : fill view.bindings.text (doubled text.toList ++ []) =
        (text.toList ++ ·) <$> fill view.bindings.text [] := fill_doubled_append text.toList
    rw [List.append_nil, fill_nil] at hfill
    rw [run_format, fillText, String.toList_ofList, hfill]
    refine congrArg (·, effects) (congrArg Except.ok ?_)
    dsimp only
    rw [List.append_nil, String.ofList_toList]

/-- A view in which one name is bound. -/
def freeing : ActionView where
  bindings := SortedMap.ofList [("ptr", .var ⟨"p", some 0, .localVar, .pointer⟩)]
  expr := .var ⟨"p", some 0, .localVar, .pointer⟩
  state := ⟨"ptr.freed", ∅⟩
  location := none

/-- Braces that stand beside the braces of a placeholder, and a name that is empty. -/
theorem format_template_freeing :
    ((∀ s ∈ [Segment.literal "set \x7b", .placeholder "ptr", .literal "\x7d"], s.IsWritable) ∧
      template [.literal "set \x7b", .placeholder "ptr", .literal "\x7d"] =
        "set \x7b\x7b\x7bptr\x7d\x7d\x7d" ∧
      ((format "set \x7b\x7b\x7bptr\x7d\x7d\x7d").run freeing).run.run .none =
        (.ok "set \x7bp\x7d", .none)) ∧
    (∀ s ∈ [Segment.placeholder "ptr", .placeholder "", .placeholder "size"], s.IsWritable) ∧
      ((format (template [.placeholder "ptr", .placeholder "", .placeholder "size"])).run
        freeing).run.run .none = (.error (.unknownBinding ""), .none) := by
  have hset : ∀ s ∈ [Segment.literal "set \x7b", .placeholder "ptr", .literal "\x7d"],
      s.IsWritable := by decide
  have hsize : ∀ s ∈ [Segment.placeholder "ptr", .placeholder "", .placeholder "size"],
      s.IsWritable := by decide
  refine ⟨⟨hset, rfl, ?_⟩, hsize, ?_⟩
  · exact (format_template hset freeing .none).1
  · exact (format_template hsize freeing .none).1

end Typestate.ActionM
