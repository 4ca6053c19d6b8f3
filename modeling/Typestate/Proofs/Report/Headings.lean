import Mathlib.Data.List.Chain
import Mathlib.Data.List.Induction
import Typestate.Report

/-!
# The headings of rendered reports

A rendered list of reports is a sequence of pieces, the texts of the reports and the headings
between them, and a report stands under the last heading before its text. A heading is written
for a report with a function and a place, unless the report before it has a function of the
same name. Nothing else is compared, and a report without a place counts as the one before:
which heading a report stands under is therefore decided by the last report up to it that one
was written for, and that report need not be in the same file.
-/

namespace Typestate

namespace Report

/-- A line that names a function and its file. -/
structure Heading where
  file : String
  function : String
  deriving DecidableEq, Repr

/-- What a rendered list of reports is made of. -/
inductive Piece
  | heading (h : Heading)
  | body (r : Report)
  deriving DecidableEq, Repr

namespace Piece

def text : Piece → String
  | heading h => h.file ++ ": In function '" ++ h.function ++ "':\n"
  | body r => r.render

def heading? : Piece → Option Heading
  | heading h => some h
  | body _ => none

def body? : Piece → Option Report
  | heading _ => none
  | body r => some r

end Piece

def headings (l : List Piece) : List Heading := l.filterMap Piece.heading?

def bodies (l : List Piece) : List Report := l.filterMap Piece.body?

@[simp] theorem headings_nil : headings [] = [] := rfl

@[simp] theorem headings_append (l m : List Piece) : headings (l ++ m) = headings l ++ headings m :=
  List.filterMap_append

@[simp] theorem headings_body (r : Report) (l : List Piece) :
    headings (.body r :: l) = headings l := rfl

@[simp] theorem headings_toList (o : Option Heading) :
    headings (o.map Piece.heading).toList = o.toList := by
  cases o <;> rfl

@[simp] theorem bodies_append (l m : List Piece) : bodies (l ++ m) = bodies l ++ bodies m :=
  List.filterMap_append

@[simp] theorem bodies_body (r : Report) (l : List Piece) :
    bodies (.body r :: l) = r :: bodies l := rfl

@[simp] theorem bodies_toList (o : Option Heading) :
    bodies (o.map Piece.heading).toList = [] := by
  cases o <;> rfl

/-! ### The pieces of a rendering -/

/-- The heading written for a report after one with the given function. -/
def heading? (current : Option String) (r : Report) : Option Heading :=
  match r.function, r.location with
  | some f, some l => if some f = current then none else some ⟨l.file, f⟩
  | _, _ => none

theorem heading?_eq_some_iff {current : Option String} {r : Report} {h : Heading} :
    r.heading? current = some h ↔ r.function = some h.function ∧
      r.location.map (·.file) = some h.file ∧ current ≠ some h.function := by
  unfold heading?
  cases r.function <;> cases r.location <;> grind [Heading]

@[simp] theorem heading?_self (r : Report) : r.heading? r.function = none := by
  rw [Option.eq_none_iff_forall_ne_some]
  intro h hh
  obtain ⟨hf, -, hc⟩ := heading?_eq_some_iff.mp hh
  exact hc hf

theorem text_heading? (current : Option String) (r : Report) :
    String.join ((((r.heading? current).map Piece.heading).toList).map Piece.text) =
      if r.function = current then "" else r.header := by
  unfold heading? header
  cases r.function <;> cases r.location <;> simp
  split <;> simp [Piece.text]

/-- The pieces of a list of reports, after one with the given function. -/
def piecesAfter : (current : Option String) → List Report → List Piece
  | _, [] => []
  | current, r :: rs =>
    ((r.heading? current).map Piece.heading).toList ++ .body r :: piecesAfter r.function rs

def pieces (l : List Report) : List Piece := piecesAfter none l

theorem renderAfter_eq (current : Option String) (l : List Report) :
    renderAfter current l = String.join ((piecesAfter current l).map Piece.text) := by
  induction l generalizing current with
  | nil => rfl
  | cons r rs ih =>
    simp only [renderAfter, piecesAfter, List.map_append, List.map_cons, String.join_append,
      String.join_cons, text_heading?, ih, Piece.text, String.append_assoc]

theorem bodies_piecesAfter (current : Option String) (l : List Report) :
    bodies (piecesAfter current l) = l := by
  induction l generalizing current with
  | nil => rfl
  | cons r rs ih => simp [piecesAfter, ih]

def lastFunction (l : List Report) : Option String := l.getLast?.bind (·.function)

@[simp] theorem lastFunction_concat (l : List Report) (r : Report) :
    lastFunction (l ++ [r]) = r.function := by
  simp [lastFunction]

theorem pieces_concat_append (l rest : List Report) (r : Report) :
    pieces (l ++ r :: rest) =
      pieces l ++ ((r.heading? (lastFunction l)).map Piece.heading).toList ++
        .body r :: piecesAfter r.function rest := by
  induction l using List.reverseRecOn generalizing r rest with
  | nil => rfl
  | append_singleton l q ih => simp [ih, piecesAfter, List.append_assoc]

theorem headings_pieces_concat (l : List Report) (r : Report) :
    headings (pieces (l ++ [r])) = headings (pieces l) ++ (r.heading? (lastFunction l)).toList := by
  simp [pieces_concat_append, piecesAfter]

theorem getLast?_headings_concat (l : List Report) (r : Report) :
    (headings (pieces (l ++ [r]))).getLast? =
      (r.heading? (lastFunction l)).or (headings (pieces l)).getLast? := by
  rw [headings_pieces_concat]
  cases r.heading? (lastFunction l) <;> simp

/-! ### The heading that a report stands under -/

/-- A heading is written for the `j`-th report of a list: it has a function and a place, and
the report before it, if any, has no function of that name. -/
def OpensAt (l : List Report) (j : Nat) (h : Heading) : Prop :=
  ∃ q, l[j]? = some q ∧ q.function = some h.function ∧ q.location.map (·.file) = some h.file ∧
    lastFunction (l.take j) ≠ some h.function

/-- The text of the `i`-th report of a list stands under a heading: no heading is written
between the two. -/
def StandsUnder (l : List Report) (i : Nat) (h : Heading) : Prop :=
  ∃ shown r rest, pieces l = shown ++ .body r :: rest ∧ bodies shown = l.take i ∧
    (headings shown).getLast? = some h

theorem opensAt_iff {l : List Report} {j : Nat} {h : Heading} :
    OpensAt l j h ↔ ∃ q, l[j]? = some q ∧ q.heading? (lastFunction (l.take j)) = some h := by
  simp only [OpensAt, heading?_eq_some_iff]

theorem OpensAt.lt {l : List Report} {j : Nat} {h : Heading} (ho : OpensAt l j h) :
    j < l.length := by
  obtain ⟨q, hq, -⟩ := ho
  exact (List.getElem?_eq_some_iff.mp hq).1

theorem opensAt_take {l : List Report} {i j : Nat} {h : Heading} :
    OpensAt (l.take i) j h ↔ j < i ∧ OpensAt l j h := by
  unfold OpensAt
  by_cases hj : j < i
  · simp [hj, List.take_take, Nat.min_eq_left (Nat.le_of_lt hj)]
  · refine iff_of_false ?_ fun h => hj h.1
    rintro ⟨q, hq, -⟩
    rw [List.getElem?_take, if_neg hj] at hq
    cases hq

theorem opensAt_concat {l : List Report} {r : Report} {j : Nat} {h : Heading} :
    OpensAt (l ++ [r]) j h ↔
      OpensAt l j h ∨ j = l.length ∧ r.heading? (lastFunction l) = some h := by
  rcases Nat.lt_trichotomy j l.length with hj | rfl | hj
  · have htake : (l ++ [r]).take j = l.take j := List.take_append_of_le_length hj.le
    simp [opensAt_iff, htake, List.getElem?_append_left hj, hj.ne]
  · simp [opensAt_iff]
  · have hl : ¬ OpensAt l j h := fun ho => Nat.lt_asymm hj ho.lt
    have hr : ¬ OpensAt (l ++ [r]) j h := fun ho => by
      have := ho.lt
      simp only [List.length_append, List.length_singleton] at this
      omega
    simp [hl, hr, hj.ne']

/-- The last heading of a rendering is the one written last: no later report has one. -/
theorem getLast?_headings_iff {l : List Report} {h : Heading} :
    (headings (pieces l)).getLast? = some h ↔
      ∃ j, OpensAt l j h ∧ ∀ k, j < k → ∀ g, ¬ OpensAt l k g := by
  induction l using List.reverseRecOn with
  | nil => simp [pieces, piecesAfter, OpensAt]
  | append_singleton l r ih =>
    rw [getLast?_headings_concat]
    cases hr : r.heading? (lastFunction l) with
    | none => simpa [opensAt_concat, hr] using ih
    | some g =>
      have hg : OpensAt (l ++ [r]) l.length g := opensAt_concat.mpr (.inr ⟨rfl, hr⟩)
      have hlast : ∀ j h, OpensAt (l ++ [r]) j h → j ≤ l.length := fun j h ho => by
        simpa [Nat.lt_succ_iff] using ho.lt
      rw [Option.some_or, Option.some.injEq]
      constructor
      · rintro rfl
        exact ⟨l.length, hg, fun k hk g' ho => Nat.not_lt.mpr (hlast k g' ho) hk⟩
      · rintro ⟨j, ho, hno⟩
        have hj : j = l.length :=
          (hlast j h ho).antisymm (Nat.not_lt.mp fun hj => hno _ hj g hg)
        rcases opensAt_concat.mp ho with hl | ⟨-, hh⟩
        · exact absurd hl.lt (hj ▸ Nat.lt_irrefl _)
        · exact Option.some.inj (hr.symm.trans hh)

theorem eq_nil_of_bodies {r : Report} {l m n : List Piece} (h : .body r :: l = m ++ n)
    (hm : bodies m = []) : m = [] := by
  cases m with
  | nil => rfl
  | cons p m =>
    obtain ⟨rfl, -⟩ := List.cons.inj h
    simp at hm

theorem shown_unique {shown shown' rest rest' : List Piece} {r r' : Report}
    (h : shown ++ .body r :: rest = shown' ++ .body r' :: rest')
    (hb : bodies shown = bodies shown') : shown = shown' := by
  rcases List.append_eq_append_iff.mp h with ⟨m, rfl, hm⟩ | ⟨m, rfl, hm⟩ <;>
    simp [eq_nil_of_bodies hm (by simpa using hb)]

theorem pieces_cut {l : List Report} {i : Nat} {r : Report} (hr : l[i]? = some r) :
    ∃ shown rest, pieces l = shown ++ .body r :: rest ∧ bodies shown = l.take i ∧
      headings shown = headings (pieces (l.take (i + 1))) := by
  obtain ⟨hi, rfl⟩ := List.getElem?_eq_some_iff.mp hr
  have hl : l = l.take i ++ l[i] :: l.drop (i + 1) := by simp
  refine ⟨_, _, (congrArg pieces hl).trans (pieces_concat_append _ _ _), ?_, ?_⟩
  · simp [pieces, bodies_piecesAfter]
  · rw [List.take_succ_eq_append_getElem hi, headings_pieces_concat, headings_append,
      headings_toList]

theorem standsUnder_iff {l : List Report} {i : Nat} (hi : i < l.length) {h : Heading} :
    StandsUnder l i h ↔ (headings (pieces (l.take (i + 1)))).getLast? = some h := by
  obtain ⟨shown, rest, hl, hb, hh⟩ := pieces_cut (List.getElem?_eq_getElem hi)
  constructor
  · rintro ⟨shown', r', rest', hl', hb', hlast⟩
    obtain rfl := shown_unique (hl.symm.trans hl') (hb.trans hb'.symm)
    rwa [hh] at hlast
  · exact fun hlast => ⟨shown, _, rest, hl, hb, hh ▸ hlast⟩

/-- Reports that follow one another and have one function's name are in one file, or neither
has a place. -/
def FilesAgree (l : List Report) : Prop :=
  l.IsChain fun p q => p.function.isSome → p.function = q.function →
    p.location.map (·.file) = q.location.map (·.file)

theorem getLast?_headings_of_filesAgree {l : List Report} {r : Report}
    (hc : FilesAgree (l ++ [r])) {h : Heading} (hf : r.function = some h.function)
    (hp : r.location.map (·.file) = some h.file) :
    (headings (pieces (l ++ [r]))).getLast? = some h := by
  induction l using List.reverseRecOn generalizing r with
  | nil =>
    have hopen : r.heading? (lastFunction []) = some h :=
      heading?_eq_some_iff.mpr ⟨hf, hp, by simp [lastFunction]⟩
    rw [getLast?_headings_concat, hopen, Option.some_or]
  | append_singleton l p ih =>
    rw [getLast?_headings_concat, lastFunction_concat]
    by_cases hl : p.function = some h.function
    · have hagree : p.location.map (·.file) = r.location.map (·.file) :=
        (List.isChain_append.mp hc).2.2 p (by simp) r (by simp) (by simp [hl]) (hl.trans hf.symm)
      rw [hl, ← hf, heading?_self, Option.none_or]
      exact ih hc.left_of_append hl (hagree.trans hp)
    · rw [heading?_eq_some_iff.mpr ⟨hf, hp, hl⟩, Option.some_or]

/-- Where the files agree, every report with a function and a place stands under a heading of
its own. -/
theorem standsUnder_of_filesAgree {l : List Report} (hc : FilesAgree l) {i : Nat} {r : Report}
    (hr : l[i]? = some r) {h : Heading} (hf : r.function = some h.function)
    (hp : r.location.map (·.file) = some h.file) : StandsUnder l i h := by
  obtain ⟨hi, rfl⟩ := List.getElem?_eq_some_iff.mp hr
  rw [standsUnder_iff hi, List.take_succ_eq_append_getElem hi]
  refine getLast?_headings_of_filesAgree ?_ hf hp
  rw [← List.take_succ_eq_append_getElem hi]
  exact hc.take (i + 1)

/-- Rendering a list writes the text of every report in order, and of the headings between
them the last one before the text of a report names its function and file just if the last
report up to it that a heading was written for has this function and file. -/
theorem renderAll_standsUnder_iff (l : List Report) :
    renderAll l = String.join ((pieces l).map Piece.text) ∧ bodies (pieces l) = l ∧
      ∀ i r function place, l[i]? = some r → r.function = some function →
        r.location = some place →
          (StandsUnder l i ⟨place.file, function⟩ ↔
            ∃ j ≤ i, OpensAt l j ⟨place.file, function⟩ ∧
              ∀ k, j < k → k ≤ i → ∀ h, ¬ OpensAt l k h) := by
  refine ⟨renderAfter_eq none l, bodies_piecesAfter none l, ?_⟩
  intro i r function place hr _ _
  rw [standsUnder_iff (List.getElem?_eq_some_iff.mp hr).1, getLast?_headings_iff]
  constructor
  · rintro ⟨j, ho, hno⟩
    obtain ⟨hj, ho⟩ := opensAt_take.mp ho
    exact ⟨j, Nat.le_of_lt_succ hj, ho, fun k hk hki g hg =>
      hno k hk g (opensAt_take.mpr ⟨Nat.lt_succ_of_le hki, hg⟩)⟩
  · rintro ⟨j, hj, ho, hno⟩
    refine ⟨j, opensAt_take.mpr ⟨Nat.lt_succ_of_le hj, ho⟩, fun k hk g hg => ?_⟩
    obtain ⟨hki, hg⟩ := opensAt_take.mp hg
    exact hno k hk (Nat.le_of_lt_succ hki) g hg

/-- Two uses of a pointer in `a.c` and one in another function. -/
def grouped : List Report :=
  [⟨"uses", some "f", some ⟨"a.c", 3, 5⟩, "use of p", none, []⟩,
    ⟨"uses", some "f", some ⟨"a.c", 4, 5⟩, "use of q", none, []⟩,
    ⟨"uses", some "g", some ⟨"b.c", 4, 5⟩, "use of r", none, []⟩]

theorem renderAll_standsUnder_iff_grouped : StandsUnder grouped 1 ⟨"a.c", "f"⟩ := by
  refine ((renderAll_standsUnder_iff grouped).2.2 1 _ "f" ⟨"a.c", 4, 5⟩ rfl rfl rfl).mpr
    ⟨0, by decide, ⟨_, rfl, rfl, rfl, by decide⟩, ?_⟩
  rintro k hk hki h ⟨q, hq, hf, -, hno⟩
  obtain rfl : k = 1 := by omega
  obtain rfl := Option.some.inj hq
  exact hno hf

/-- Three uses in functions of one name. For the first there is no place to name in a heading,
and for the others no heading is written, although they have places, and in different files. -/
def alike : List Report :=
  [⟨"uses", some "f", none, "use of p", none, []⟩,
    ⟨"uses", some "f", some ⟨"a.c", 3, 5⟩, "use of q", none, []⟩,
    ⟨"uses", some "f", some ⟨"b.c", 4, 5⟩, "use of r", none, []⟩]

theorem renderAll_alike_unheaded :
    renderAll alike = "error: use of p\na.c:3:5: error: use of q\nb.c:4:5: error: use of r\n" ∧
      ¬ StandsUnder alike 1 ⟨"a.c", "f"⟩ ∧ ¬ StandsUnder alike 2 ⟨"b.c", "f"⟩ := by
  have hnone : ∀ i h, ¬ StandsUnder alike i h := by
    rintro i h ⟨shown, r, rest, hl, -, hlast⟩
    have hall : headings (shown ++ .body r :: rest) = [] := hl ▸ rfl
    simp only [headings_append, List.append_eq_nil_iff] at hall
    simp [hall.1] at hlast
  exact ⟨by decide, hnone _ _, hnone _ _⟩

end Report

end Typestate
