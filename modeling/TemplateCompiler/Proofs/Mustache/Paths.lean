/-
What a path means, beside what it spells.

A path is put together from its names, and its head is then chosen by how the whole
path looks once the brackets are gone.

* `Segment.spelled` — the head and tail that the written names stand for;
* `Segment.misread` — the written names that look like something else without their
  brackets, or start from words that leave no name;
* `join_eq_ok`, `checkSeparators_eq_ok`, `splitHead_eq_ok` — what each of the three
  steps gives when it gives something;
* `toPath_eq_spelled_iff` — a path means what it spells unless it is misread.

Words for a context are dropped while no name has been read, so a second `this` is
lost as well as the first one.  Slashes make one name of all the names that are
left, and `this` is looked for only afterwards.
-/
import Mathlib.Data.List.Basic
import TemplateCompiler.Mustache.Path
import TemplateCompiler.Proofs.Diagnostic.Success

namespace TemplateCompiler.Mustache.Segment

open Template (Head Path)

/-! ### What is spelled -/

/-- The name that a segment stands for. -/
def name (s : Segment) : String := idName s.raw

/-- A segment as it is shown, with the separator before it. -/
def shown (s : Segment) : List Char := s.separator.toList ++ unbracket s.raw.toList

/-- The mark in front of a path. -/
def mark (data : Bool) : List Char := if data then ['@'] else []

/-- Whether a slash stands before a segment. -/
def slashed (s : Segment) : Bool := s.separator == some '/'

/-- Names as they come from a template: a dot or a slash before each but the first. -/
structure Separated (first : Segment) (rest : List Segment) : Prop where
  first : first.separator = none
  rest : ∀ s ∈ rest, s.separator = some '.' ∨ s.separator = some '/'

/-- The head that a name makes, after an at sign or not. -/
def nameHead (data : Bool) (name : String) : Head := if data then .at name else .var name

/-- The head and tail that the written names stand for. -/
def spelled (data : Bool) (first : Segment) (rest : List Segment) : Head × List String :=
  if !data && first.raw == "this" then (.this, rest.map name)
  else if rest.any slashed then
    (nameHead data (String.intercalate "/" ((first :: rest).map name)), [])
  else (nameHead data first.name, rest.map name)

/-- Whether a path means something else than it spells: its first `this` is lost
behind an at sign or before a slash, a second word for a context is lost, or its
names look like `this` without their brackets. -/
def misread (data : Bool) (first : Segment) (rest : List Segment) : Bool :=
  if first.raw == "this" then data || rest.head?.any fun s => s.slashed || s.isContextWord
  else !data && startsWithThis ((first :: rest).flatMap shown)

/-! ### The three steps -/

/-- Joining shows every segment; the names are those after the first words for a
context. -/
theorem join_eq_ok {written written' : List Char} {parts parts' : List String}
    {segments : List Segment} (h : join written parts segments = .ok (written', parts')) :
    written' = written ++ segments.flatMap shown ∧
    parts' = parts ++
      (if parts.isEmpty then segments.dropWhile isContextWord else segments).map name := by
  induction segments generalizing written parts with
  | nil =>
    rw [join] at h
    cases h
    simp
  | cons s rest ih =>
    rw [join] at h
    -- A word for a context is dropped as long as no name came before it.
    by_cases hs : s.isContextWord
    · rw [if_pos hs] at h
      split at h
      · rename_i hparts
        obtain ⟨hwritten, hparts'⟩ := ih h
        refine ⟨by simp [hwritten, shown], ?_⟩
        rw [hparts', if_pos hparts, if_pos hparts, List.dropWhile_cons_of_pos hs]
      · cases h
    · rw [if_neg hs] at h
      obtain ⟨hwritten, hparts'⟩ := ih h
      refine ⟨by simp [hwritten, shown], ?_⟩
      rw [hparts', List.dropWhile_cons_of_neg hs, ite_self, if_neg (by simp)]
      simp [name, idName]

/-- Slashes make one name of all, and then no dot is shown; without slashes the names
stay as they are. -/
theorem checkSeparators_eq_ok {written : List Char} {parts parts' : List String}
    (h : checkSeparators written parts = .ok parts') :
    ('/' ∈ written ∧ '.' ∉ written ∧ parts' = [String.intercalate "/" parts]) ∨
    ('/' ∉ written ∧ parts' = parts) := by
  rw [checkSeparators] at h
  split at h
  · rename_i hslash
    split at h
    · cases h
    split at h
    · cases h
    split at h
    · cases h
    rename_i hdot
    cases h
    exact .inl ⟨by simpa using hslash, by simpa using hdot, rfl⟩
  · rename_i hslash
    split at h
    · cases h
    cases h
    exact .inr ⟨by simpa using hslash, rfl⟩

/-- The head is `this` where the path looks so, and otherwise its first name. -/
theorem splitHead_eq_ok {data : Bool} {written : List Char} {parts tail : List String}
    {head : Head} (h : splitHead data written parts = .ok (head, tail)) :
    (startsWithThis written = true ∧ head = .this ∧ tail = parts) ∨
    (startsWithThis written = false ∧
      ∃ first, parts = first :: tail ∧ first ≠ "" ∧ head = nameHead data first) := by
  rw [splitHead.eq_def] at h
  split at h
  · rename_i hthis
    cases h
    exact .inl ⟨hthis, rfl, rfl⟩
  rename_i hthis
  cases parts with
  | nil => cases h
  | cons first rest =>
    simp only at h
    split at h
    · cases h
    rename_i hempty
    cases h
    exact .inr ⟨by simpa using hthis, first, rfl, by simpa using hempty, rfl⟩

/-- What a path is made of: the names after the first words for a context. -/
theorem toPath_eq_ok {data : Bool} {segments : List Segment} {span : Span} {p : Path}
    (h : toPath data segments span = .ok p) :
    ∃ written parts,
      written = mark data ++ segments.flatMap shown ∧
      checkSeparators written ((segments.dropWhile isContextWord).map name) = .ok parts ∧
      splitHead data written parts = .ok (p.head, p.tail) := by
  rw [toPath] at h
  split at h
  · rename_i head tail written hassemble
    cases h
    simp only [assemble, bind_eq_ok, pure_eq_ok, Prod.exists, Prod.mk.injEq] at hassemble
    obtain ⟨shown, names, hjoin, parts, hparts, head, tail, hhead, rfl, rfl, rfl⟩ := hassemble
    obtain ⟨rfl, rfl⟩ := join_eq_ok hjoin
    exact ⟨_, parts, rfl, hparts, hhead⟩
  · cases h

/-! ### How a path looks -/

/-- Nothing starts from `this` behind an at sign. -/
theorem startsWithThis_mark (data : Bool) (written : List Char) :
    startsWithThis (mark data ++ written) = (!data && startsWithThis written) := by
  cases data <;> simp [startsWithThis, mark]

theorem startsWithThis_slash (written : List Char) :
    startsWithThis ("this".toList ++ '/' :: written) = false := by
  simp [startsWithThis]

/-- After `this` and a dot, something has to be shown. -/
theorem startsWithThis_dot (written : List Char) :
    startsWithThis ("this".toList ++ '.' :: written) = !written.isEmpty := by
  cases written with
  | nil => decide
  | cons x rest =>
    have hlong : 5 < Text.byteLength ("this".toList ++ '.' :: x :: rest) := by
      have hx : 0 < x.utf8Size := x.utf8Size_pos
      have hword : Text.byteLength "this".toList = 4 := by decide
      have hdot : '.'.utf8Size = 1 := by decide
      rw [Text.byteLength_append, hword, Text.byteLength_cons, Text.byteLength_cons, hdot]
      omega
    rw [startsWithThis, decide_eq_true hlong]
    simp

/-! ### Joined names -/

/-- A name in front makes the joined names longer. -/
theorem length_intercalate_cons (mark first : String) (rest : List String) :
    first.length + (String.intercalate mark rest).length
      ≤ (String.intercalate mark (first :: rest)).length := by
  cases rest with
  | nil => simp
  | cons second rest => simp

/-- Dropping names makes the joined names no longer. -/
theorem length_intercalate_dropWhile (mark : String) (drops : Segment → Bool)
    (segments : List Segment) :
    (String.intercalate mark ((segments.dropWhile drops).map name)).length
      ≤ (String.intercalate mark (segments.map name)).length := by
  induction segments with
  | nil => exact Nat.le_refl _
  | cons s rest ih =>
    by_cases hs : drops s = true
    · rw [List.dropWhile_cons_of_pos hs]
      have hcons := length_intercalate_cons mark s.name (rest.map name)
      rw [List.map_cons]
      omega
    · exact Nat.le_of_eq (by rw [List.dropWhile_cons_of_neg hs])

/-! ### Separators -/

variable {first : Segment} {rest : List Segment}

/-- A separator is shown. -/
theorem mem_shown {s : Segment} (hs : s ∈ rest) {mark : Char} (hmark : s.separator = some mark) :
    mark ∈ (first :: rest).flatMap shown :=
  List.mem_flatMap.mpr ⟨s, List.mem_cons_of_mem _ hs, by simp [shown, hmark]⟩

/-- Where no slash is shown, none separates the names. -/
theorem any_slashed_eq_false (h : '/' ∉ (first :: rest).flatMap shown) :
    rest.any slashed = false := by
  rw [List.any_eq_false]
  intro s hs hslashed
  exact h (mem_shown hs (by simpa [slashed] using hslashed))

/-- Where no dot is shown, slashes separate the names. -/
theorem any_slashed_eq_true (hsep : Separated first rest) (hrest : rest ≠ [])
    (h : '.' ∉ (first :: rest).flatMap shown) : rest.any slashed = true := by
  obtain ⟨second, more, rfl⟩ := List.exists_cons_of_ne_nil hrest
  have hsecond : second.separator = some '/' :=
    (hsep.rest second List.mem_cons_self).resolve_left fun hdot =>
      h (mem_shown List.mem_cons_self hdot)
  simp [slashed, hsecond]

/-- With nothing dropped, the names after the rules for separators are those that the
segments spell. -/
theorem checkSeparators_names (hsep : Separated first rest) {start : List Char}
    {parts : List String}
    (h : checkSeparators (start ++ (first :: rest).flatMap shown) ((first :: rest).map name)
      = .ok parts) :
    parts = if rest.any slashed then [String.intercalate "/" ((first :: rest).map name)]
      else (first :: rest).map name := by
  rcases checkSeparators_eq_ok h with ⟨-, hdot, rfl⟩ | ⟨hslash, rfl⟩
  · by_cases hrest : rest = []
    · subst hrest
      simp
    · rw [if_pos (any_slashed_eq_true hsep hrest fun hmem => hdot (List.mem_append_right _ hmem))]
  · have hnone : rest.any slashed = false :=
      any_slashed_eq_false fun hmem => hslash (List.mem_append_right _ hmem)
    rw [hnone, if_neg Bool.false_ne_true]

/-! ### What a path means -/

/-- A path that does not start from `this`, and does not look so, means what it
spells. -/
theorem spelled_of_not_this (hsep : Separated first rest) {data : Bool} {start : List Char}
    (hfirst : first.raw ≠ "this") {head : String} {tail : List String}
    (h : checkSeparators (start ++ (first :: rest).flatMap shown) ((first :: rest).map name)
      = .ok (head :: tail)) :
    spelled data first rest = (nameHead data head, tail) := by
  have hnames := checkSeparators_names hsep h
  rw [spelled, if_neg (by simp [hfirst])]
  split at hnames
  · rename_i hslash
    obtain ⟨rfl, rfl⟩ := List.cons.inj hnames
    rw [if_pos hslash]
  · rename_i hslash
    obtain ⟨rfl, rfl⟩ := List.cons.inj hnames
    rw [if_neg hslash]

/-- Behind an at sign, `this` is lost. -/
theorem spelled_ne_of_at (hsep : Separated first rest) (hfirst : first.raw = "this")
    {head : String} {tail : List String}
    (h : checkSeparators ('@' :: (first :: rest).flatMap shown)
      ((rest.dropWhile isContextWord).map name) = .ok (head :: tail)) (hhead : head ≠ "") :
    spelled true first rest ≠ (.at head, tail) := by
  have hthis : first.name = "this" := by rw [name, hfirst]; decide
  rw [spelled, if_neg (by simp), nameHead, nameHead, if_pos rfl, if_pos rfl]
  rcases checkSeparators_eq_ok h with ⟨-, hdot, hone⟩ | ⟨hslash, hall⟩
  · -- One name is made of those after `this`, and it is shorter than the one spelled.
    obtain ⟨rfl, rfl⟩ := List.cons.inj hone
    have hrest : rest ≠ [] := by
      rintro rfl
      exact hhead rfl
    rw [if_pos (any_slashed_eq_true hsep hrest fun hmem => hdot (List.mem_cons_of_mem _ hmem))]
    intro heq
    have hsame := congrArg String.length (Head.at.inj (Prod.mk.inj heq).1)
    have hlonger := length_intercalate_cons "/" "this" (rest.map name)
    have hshorter := length_intercalate_dropWhile "/" isContextWord rest
    have hfour : "this".length = 4 := by decide
    rw [List.map_cons, hthis] at hsame
    omega
  · -- No more names are left than follow `this`, and one of them is the head.
    have hnone : rest.any slashed = false :=
      any_slashed_eq_false fun hmem => hslash (List.mem_cons_of_mem _ hmem)
    rw [hnone, if_neg Bool.false_ne_true]
    intro heq
    have hlength := congrArg List.length (Prod.mk.inj heq).2
    have hcount := congrArg List.length hall
    have hfewer := (List.dropWhile_suffix (l := rest) isContextWord).length_le
    simp only [List.length_map, List.length_cons] at hlength hcount
    omega

/-- A dropped name is missing. -/
theorem map_name_dropWhile_eq_iff (s : Segment) (segments : List Segment) :
    ((s :: segments).dropWhile isContextWord).map name = (s :: segments).map name ↔
      s.isContextWord = false := by
  by_cases hs : s.isContextWord = true
  · rw [List.dropWhile_cons_of_pos hs]
    refine ⟨fun heq => ?_, fun hnot => by simp [hs] at hnot⟩
    have hlength := congrArg List.length heq
    have hfewer := (List.dropWhile_suffix (l := segments) isContextWord).length_le
    simp only [List.length_map, List.length_cons] at hlength
    omega
  · rw [List.dropWhile_cons_of_neg hs]
    simpa using hs

/-- A segment that shows no name is not a word for a context. -/
theorem isContextWord_of_unbracket_eq_nil {s : Segment} (h : unbracket s.raw.toList = []) :
    s.isContextWord = false := by
  rw [isContextWord, Bool.or_eq_false_iff, Bool.or_eq_false_iff]
  refine ⟨⟨?_, ?_⟩, ?_⟩ <;> rw [beq_eq_false_iff_ne] <;> intro hraw <;> rw [hraw] at h <;>
    exact absurd h (by decide)

/-- A path that starts from `this` and is no argument means what it spells unless
`this` is lost before a slash or another word for a context is lost after it. -/
theorem this_eq_spelled_iff (hsep : Separated first rest) (hfirst : first.raw = "this")
    {parts tail : List String} {head : Head}
    (hparts : checkSeparators ((first :: rest).flatMap shown)
      ((rest.dropWhile isContextWord).map name) = .ok parts)
    (hhead : splitHead false ((first :: rest).flatMap shown) parts = .ok (head, tail)) :
    (head, tail) = (.this, rest.map name) ↔
      (rest.head?.any fun s => s.slashed || s.isContextWord) = false := by
  have hshown : first.shown = "this".toList := by rw [shown, hsep.first, hfirst]; decide
  cases rest with
  | nil =>
    rw [List.flatMap_cons, hshown, List.flatMap_nil] at hparts hhead
    have hnone : parts = [] := Except.ok.inj (hparts.symm.trans (by decide))
    rcases splitHead_eq_ok hhead with ⟨-, rfl, rfl⟩ | ⟨hthis, -⟩
    · simp [hnone]
    · exact absurd hthis (by decide)
  | cons second more =>
    have hform : ∀ mark, second.separator = some mark → (first :: second :: more).flatMap shown
        = "this".toList ++ mark :: (unbracket second.raw.toList ++ more.flatMap shown) := by
      intro mark hmark
      rw [List.flatMap_cons, hshown, List.flatMap_cons, shown, hmark]
      simp
    rcases hsep.rest second List.mem_cons_self with hdot | hslash
    · -- A dot is shown, so no slash is, and the names stay as they are.
      have hnoslash : second.slashed = false := by simp [slashed, hdot]
      have hnames : parts = ((second :: more).dropWhile isContextWord).map name := by
        rcases checkSeparators_eq_ok hparts with ⟨-, hnodot, -⟩ | ⟨-, hnames⟩
        · exact absurd (mem_shown List.mem_cons_self hdot) hnodot
        · exact hnames
      rcases splitHead_eq_ok hhead with ⟨-, rfl, rfl⟩ | ⟨hthis, head, hcons, hname, -⟩
      · rw [Prod.mk.injEq, eq_self, true_and, hnames, map_name_dropWhile_eq_iff]
        simp [hnoslash]
      · -- Nothing is shown after `this.`, so the name after it is empty.
        rw [hform _ hdot, startsWithThis_dot, Bool.not_eq_false', List.isEmpty_iff,
          List.append_eq_nil_iff] at hthis
        have hword := isContextWord_of_unbracket_eq_nil hthis.1
        rw [hnames, List.dropWhile_cons_of_neg (by simp [hword]), List.map_cons] at hcons
        refine absurd ?_ hname
        rw [← (List.cons.inj hcons).1, name, idName, hthis.1]
    · -- Behind `this/` the path does not look as if it started from `this`.
      rcases splitHead_eq_ok hhead with ⟨hthis, -⟩ | ⟨-, name, -, -, rfl⟩
      · rw [hform _ hslash, startsWithThis_slash] at hthis
        cases hthis
      · simp [slashed, hslash, nameHead]

/-- A path with a name in front means what it spells unless it looks as if it
started from `this`. -/
theorem name_eq_spelled_iff (hsep : Separated first rest) (hfirst : first.raw ≠ "this")
    {data : Bool} {parts tail : List String} {head : Head}
    (hparts : checkSeparators (mark data ++ (first :: rest).flatMap shown)
      ((first :: rest).map name) = .ok parts)
    (hhead : splitHead data (mark data ++ (first :: rest).flatMap shown) parts
      = .ok (head, tail)) :
    (head, tail) = spelled data first rest ↔
      (!data && startsWithThis ((first :: rest).flatMap shown)) = false := by
  rw [← startsWithThis_mark]
  rcases splitHead_eq_ok hhead with ⟨hthis, rfl, rfl⟩ | ⟨hthis, name, rfl, -, rfl⟩
  · -- No name makes the head `this`.
    rw [spelled, if_neg (by simp [hfirst]), hthis]
    split <;> simp [nameHead] <;> split <;> simp
  · rw [spelled_of_not_this hsep hfirst hparts, hthis]
    simp

/-- **A path means what it spells unless it is misread**: for all names that make a
path, the first of which is not `.` or `..`. -/
theorem toPath_eq_spelled_iff (data : Bool) (first : Segment) (rest : List Segment)
    (span : Span) (p : Path) (hsep : Separated first rest)
    (hdots : first.raw ≠ "." ∧ first.raw ≠ "..")
    (h : toPath data (first :: rest) span = .ok p) :
    (p.head, p.tail) = spelled data first rest ↔ misread data first rest = false := by
  obtain ⟨written, parts, rfl, hparts, hhead⟩ := toPath_eq_ok h
  -- `this` is the only word for a context that can be first here.
  by_cases hfirst : first.raw = "this"
  · have hword : first.isContextWord = true := by simp [isContextWord, hfirst]
    rw [List.dropWhile_cons_of_pos hword] at hparts
    rw [misread, if_pos (by simp [hfirst])]
    cases data with
    | true =>
      rcases splitHead_eq_ok hhead with ⟨hthis, -⟩ | ⟨-, name, rfl, hname, hat⟩
      · rw [startsWithThis_mark] at hthis
        cases hthis
      · have hlost := spelled_ne_of_at hsep hfirst hparts hname
        rw [nameHead, if_pos rfl] at hat
        simp [hat, hlost.symm]
    | false =>
      rw [spelled, if_pos (by simp [hfirst]), Bool.false_or]
      exact this_eq_spelled_iff hsep hfirst hparts hhead
  · have hword : first.isContextWord = false := by simp [isContextWord, hfirst, hdots]
    rw [List.dropWhile_cons_of_neg (by simp [hword])] at hparts
    rw [misread, if_neg (by simp [hfirst])]
    exact name_eq_spelled_iff hsep hfirst hparts hhead

/-- In `this.[a b].c` the brackets are taken off, and nothing is lost. -/
theorem toPath_eq_spelled_brackets :
    ∃ p, toPath false [⟨none, "this"⟩, ⟨some '.', "[a b]"⟩, ⟨some '.', "c"⟩] ⟨2, 14⟩ = .ok p ∧
      (p.head, p.tail) = (.this, ["a b", "c"]) := by
  refine ⟨⟨.this, ["a b", "c"], "this.a b.c", ⟨2, 14⟩⟩, by decide, ?_⟩
  exact (toPath_eq_spelled_iff false ⟨none, "this"⟩ [⟨some '.', "[a b]"⟩, ⟨some '.', "c"⟩]
    ⟨2, 14⟩ _ ⟨rfl, by decide⟩ (by decide) (by decide)).mpr (by decide)

/-- Not every path means what it spells: the name `[this]` is read as a property of
`this`. -/
theorem toPath_misreads :
    ¬ ∀ (data : Bool) (first : Segment) (rest : List Segment) (span : Span) (p : Path),
      Separated first rest → first.raw ≠ "." ∧ first.raw ≠ ".." →
      toPath data (first :: rest) span = .ok p → (p.head, p.tail) = spelled data first rest := by
  intro hall
  have hbracketed := hall false ⟨none, "[this]"⟩ [] ⟨2, 8⟩ ⟨.this, ["this"], "this", ⟨2, 8⟩⟩
    ⟨rfl, by simp⟩ (by decide) (by decide)
  exact absurd hbracketed (by decide)

-- The other ways to lose a word, and a slash that makes `this` a name again.
example : misread false ⟨none, "this"⟩ [⟨some '/', "a"⟩] = true := by decide
example : misread false ⟨none, "this"⟩ [⟨some '.', "this"⟩, ⟨some '.', "a"⟩] = true := by decide
example : misread true ⟨none, "this"⟩ [⟨some '.', "a"⟩] = true := by decide
example : misread false ⟨none, "[this]"⟩ [⟨some '/', "a"⟩] = false := by decide

end TemplateCompiler.Mustache.Segment
