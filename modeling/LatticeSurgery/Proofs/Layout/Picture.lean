import LatticeSurgery.Proofs.Layout.Exploration

/-! # Pictures of layouts

A layout is read from a picture, mark by mark, and drawn as one again. Reading fails at the first row that is longer or
shorter than the first one, or at the first mark that names no patch. What is drawn is what was read, but for the two
marks of one kind of external patch, and reading it once more gives the same layout.
-/

namespace LatticeSurgery

namespace Patch

/-- The marks that name a patch. -/
def alphabet : List Char := ['Z', 'X', '.', '#', 'E', 'e', 'x']

/-- The mark that a picture has for another: of two marks for the same patch it has one. -/
def spelling (mark : Char) : Char := if mark = 'e' then 'E' else mark

/-- The patch that a mark names at a place. -/
def named? (c : Coord) (mark : Char) : Option Patch :=
  (ofMark? mark).map fun named => { coord := c, kind := named.1, orientation := named.2 }

variable {c : Coord} {mark : Char} {patch : Patch}

theorem mem_alphabet : mark ∈ alphabet ↔ (ofMark? mark).isSome := by
  unfold ofMark? alphabet
  split <;> simp_all

theorem ofMark?_spelling (mark : Char) : ofMark? (spelling mark) = ofMark? mark := by
  unfold spelling
  split
  next small =>
      subst small
      rfl
  · rfl

theorem spelling_ne_newline (known : mark ∈ alphabet) : spelling mark ≠ '\n' := by
  have all : alphabet.all fun mark => spelling mark != '\n' := by decide
  simpa using List.all_eq_true.mp all mark known

theorem named?_eq_some (h : named? c mark = some patch) :
    patch.coord = c ∧ patch.mark = spelling mark ∧ (patch.kind = .blocked ↔ mark = '#') := by
  obtain ⟨⟨kind, orientation⟩, named, rfl⟩ := Option.map_eq_some_iff.mp h
  refine ⟨rfl, ?_⟩
  unfold ofMark? at named
  split at named <;> cases named <;> simp [Patch.mark, bareMark, spelling]

end Patch

namespace Layout

variable {row col cols : Nat} {mark : Char} {marks : List Char} {line : String} {lines : List String}
  {patches : List Patch} {rows : List (List Patch)} {l : Layout} {e : Error}

/-! ## Rows -/

theorem readRow_cons_eq_ok : readRow row col (mark :: marks) = .ok patches ↔
    ∃ patch rest, Patch.named? ⟨row, col⟩ mark = some patch ∧ readRow row (col + 1) marks = .ok rest ∧
      patches = patch :: rest := by
  rw [readRow, Patch.named?]
  cases Patch.ofMark? mark with
  | none => simp
  | some named =>
      cases readRow row (col + 1) marks <;> simp [bind, Except.bind, pure, Except.pure, eq_comm]

theorem readRow_cons_eq_error : readRow row col (mark :: marks) = .error e ↔
    mark ∉ Patch.alphabet ∧ e = .badSetup (.unknownPatch mark row col) ∨
      mark ∈ Patch.alphabet ∧ readRow row (col + 1) marks = .error e := by
  rw [readRow, Patch.mem_alphabet]
  cases Patch.ofMark? mark with
  | none => simp [eq_comm]
  | some named =>
      cases readRow row (col + 1) marks <;> simp [bind, Except.bind, pure, Except.pure]

/-- Reading a row stops at the first mark that names no patch. -/
theorem readRow_eq_error_iff : readRow row col marks = .error e ↔
    ∃ good bad rest, marks = good ++ bad :: rest ∧ (∀ mark ∈ good, mark ∈ Patch.alphabet) ∧ bad ∉ Patch.alphabet ∧
      e = .badSetup (.unknownPatch bad row (col + good.length)) := by
  induction marks generalizing col with
  | nil => simp [readRow]
  | cons mark marks ih =>
      rw [readRow_cons_eq_error, ih]
      constructor
      · rintro (⟨unknown, cause⟩ | ⟨known, good, bad, rest, rfl, before, unknown, rfl⟩)
        · exact ⟨[], mark, marks, rfl, by simp, unknown, cause⟩
        · refine ⟨mark :: good, bad, rest, rfl, List.forall_mem_cons.mpr ⟨known, before⟩, unknown, ?_⟩
          rw [List.length_cons, Nat.add_assoc, Nat.add_comm 1]
      · rintro ⟨good, bad, rest, split, before, unknown, rfl⟩
        cases good with
        | nil =>
            obtain ⟨rfl, -⟩ := List.cons.inj split
            exact .inl ⟨unknown, rfl⟩
        | cons first good =>
            obtain ⟨rfl, rfl⟩ := List.cons.inj split
            obtain ⟨known, before⟩ := List.forall_mem_cons.mp before
            refine .inr ⟨known, good, bad, rest, rfl, before, unknown, ?_⟩
            rw [List.length_cons, Nat.add_assoc, Nat.add_comm 1]

theorem map_mark_readRow (h : readRow row col marks = .ok patches) :
    patches.map Patch.mark = marks.map Patch.spelling := by
  induction marks generalizing col patches with
  | nil => cases h; rfl
  | cons mark marks ih =>
      obtain ⟨patch, rest, named, onward, rfl⟩ := readRow_cons_eq_ok.mp h
      simp [ih onward, (Patch.named?_eq_some named).2.1]

theorem map_coord_readRow (h : readRow row col marks = .ok patches) :
    patches.map (·.coord) = (List.range' col marks.length).map fun col => ⟨row, col⟩ := by
  induction marks generalizing col patches with
  | nil => cases h; rfl
  | cons mark marks ih =>
      obtain ⟨patch, rest, named, onward, rfl⟩ := readRow_cons_eq_ok.mp h
      simp [ih onward, (Patch.named?_eq_some named).1, List.range'_succ]

theorem getElem?_readRow (h : readRow row col marks = .ok patches) (i : Nat) :
    patches[i]? = (marks[i]?).bind (Patch.named? ⟨row, col + i⟩) := by
  induction marks generalizing col patches i with
  | nil => cases h; rfl
  | cons mark marks ih =>
      obtain ⟨patch, rest, named, onward, rfl⟩ := readRow_cons_eq_ok.mp h
      cases i with
      | zero => simp [named]
      | succ i => simp [ih onward, Nat.add_assoc, Nat.add_comm 1]

/-- Reading does not tell one spelling from the other. -/
theorem readRow_spelling (row col : Nat) (marks : List Char) :
    readRow row col (marks.map Patch.spelling) = readRow row col marks := by
  induction marks generalizing col with
  | nil => rfl
  | cons mark marks ih =>
      rw [List.map_cons, readRow, readRow, Patch.ofMark?_spelling, ih]
      cases named : Patch.ofMark? mark with
      | some _ => rfl
      | none =>
          -- the error shows the mark, but one that names nothing has no second spelling
          have same : Patch.spelling mark = mark := by
            apply if_neg
            rintro rfl
            cases named
          rw [same]

theorem readRow_isOk_iff (row col : Nat) (marks : List Char) :
    (∃ patches, readRow row col marks = .ok patches) ↔ ∀ mark ∈ marks, mark ∈ Patch.alphabet := by
  induction marks generalizing col with
  | nil => simp [readRow]
  | cons mark marks ih =>
      rw [List.forall_mem_cons, ← ih (col + 1), Patch.mem_alphabet]
      simp [readRow_cons_eq_ok, Patch.named?, Option.isSome_iff_exists]

/-! ## Pictures -/

/-- A row of the given length that holds marks only. -/
def SoundRow (cols : Nat) (line : String) : Prop := line.length = cols ∧ ∀ mark ∈ line.toList, mark ∈ Patch.alphabet

/-- A picture is read row by row, and a row only if its length is right. -/
theorem readRows_cons_eq_ok : readRows cols row ((line :: lines).map String.toList) = .ok rows ↔
    line.length = cols ∧ ∃ patches rest, readRow row 0 line.toList = .ok patches ∧
      readRows cols (row + 1) (lines.map String.toList) = .ok rest ∧ rows = patches :: rest := by
  rw [List.map_cons, readRows, String.length_toList]
  split
  next fits =>
      cases readRow row 0 line.toList with
      | error => simp [bind, Except.bind]
      | ok patches =>
          cases readRows cols (row + 1) (lines.map String.toList) <;>
            simp [bind, Except.bind, pure, Except.pure, fits, eq_comm]
  next ragged => simp [ragged]

theorem readRows_cons_eq_error : readRows cols row ((line :: lines).map String.toList) = .error e ↔
    line.length ≠ cols ∧ e = .badSetup (.rowLength row line.length cols) ∨
    line.length = cols ∧ readRow row 0 line.toList = .error e ∨
    SoundRow cols line ∧ readRows cols (row + 1) (lines.map String.toList) = .error e := by
  rw [List.map_cons, readRows, String.length_toList]
  split
  next fits =>
      have sound : SoundRow cols line ↔ ∃ patches, readRow row 0 line.toList = .ok patches := by
        rw [readRow_isOk_iff]
        exact and_iff_right fits
      rw [sound]
      cases readRow row 0 line.toList with
      | error => simp [bind, Except.bind, fits]
      | ok patches =>
          cases readRows cols (row + 1) (lines.map String.toList) <;>
            simp [bind, Except.bind, pure, Except.pure, fits]
  next ragged => simp [ragged, SoundRow, eq_comm]

theorem readRows_eq_error_iff : readRows cols row (lines.map String.toList) = .error e ↔
    ∃ sound line rest, lines = sound ++ line :: rest ∧ (∀ other ∈ sound, SoundRow cols other) ∧
      (line.length ≠ cols ∧ e = .badSetup (.rowLength (row + sound.length) line.length cols) ∨
        line.length = cols ∧ readRow (row + sound.length) 0 line.toList = .error e) := by
  induction lines generalizing row with
  | nil => simp [readRows]
  | cons line lines ih =>
      rw [readRows_cons_eq_error, ih]
      constructor
      · rintro (ragged | flawed | ⟨here, sound, line', rest, rfl, before, flaw⟩)
        · exact ⟨[], line, lines, rfl, by simp, .inl ragged⟩
        · exact ⟨[], line, lines, rfl, by simp, .inr flawed⟩
        · refine ⟨line :: sound, line', rest, rfl, List.forall_mem_cons.mpr ⟨here, before⟩, ?_⟩
          rwa [List.length_cons, Nat.add_comm sound.length, ← Nat.add_assoc]
      · rintro ⟨sound, line', rest, split, before, flaw⟩
        cases sound with
        | nil =>
            obtain ⟨rfl, -⟩ := List.cons.inj split
            exact flaw.imp_right .inl
        | cons first sound =>
            obtain ⟨rfl, rfl⟩ := List.cons.inj split
            obtain ⟨here, before⟩ := List.forall_mem_cons.mp before
            rw [List.length_cons, Nat.add_comm sound.length, ← Nat.add_assoc] at flaw
            exact .inr (.inr ⟨here, sound, line', rest, rfl, before, flaw⟩)

theorem readRows_isOk_iff (cols row : Nat) (lines : List String) :
    (∃ rows, readRows cols row (lines.map String.toList) = .ok rows) ↔ ∀ line ∈ lines, SoundRow cols line := by
  induction lines generalizing row with
  | nil => simp [readRows]
  | cons line lines ih =>
      rw [List.forall_mem_cons, ← ih (row + 1), SoundRow, ← readRow_isOk_iff row 0]
      constructor
      · rintro ⟨rows, reads⟩
        obtain ⟨fits, patches, rest, first, onward, -⟩ := readRows_cons_eq_ok.mp reads
        exact ⟨⟨fits, patches, first⟩, rest, onward⟩
      · rintro ⟨⟨fits, patches, first⟩, rest, onward⟩
        exact ⟨_, readRows_cons_eq_ok.mpr ⟨fits, patches, rest, first, onward, rfl⟩⟩

theorem lines_readRows (h : readRows cols row (lines.map String.toList) = .ok rows) :
    rows.map (fun row => String.ofList (row.map Patch.mark)) = lines.map (String.map Patch.spelling) := by
  induction lines generalizing row rows with
  | nil => cases h; rfl
  | cons line lines ih =>
      obtain ⟨-, patches, rest, first, onward, rfl⟩ := readRows_cons_eq_ok.mp h
      rw [List.map_cons, List.map_cons, ih onward, map_mark_readRow first, ← String.toList_map, String.ofList_toList]

theorem coords_readRows (h : readRows cols row (lines.map String.toList) = .ok rows) :
    rows.flatten.map (·.coord)
      = (rows.zipIdx row).flatMap fun entry => (List.range entry.1.length).map fun col => ⟨entry.2, col⟩ := by
  induction lines generalizing row rows with
  | nil => cases h; rfl
  | cons line lines ih =>
      obtain ⟨-, patches, rest, first, onward, rfl⟩ := readRows_cons_eq_ok.mp h
      have coords := map_coord_readRow first
      have length : patches.length = line.toList.length := by simpa using congrArg List.length coords
      simp [List.zipIdx_cons, ih onward, coords, length, List.range_eq_range']

theorem getElem?_readRows (h : readRows cols row (lines.map String.toList) = .ok rows) (i j : Nat) :
    ((rows[i]?).bind fun row => row[j]?)
      = ((lines[i]?).bind fun line => line.toList[j]?).bind (Patch.named? ⟨row + i, j⟩) := by
  induction lines generalizing row rows i with
  | nil => cases h; rfl
  | cons line lines ih =>
      obtain ⟨-, patches, rest, first, onward, rfl⟩ := readRows_cons_eq_ok.mp h
      cases i with
      | zero => simp [getElem?_readRow first]
      | succ i => simp [ih onward, Nat.add_assoc, Nat.add_comm 1]

theorem readRows_spelling (cols row : Nat) (lines : List String) :
    readRows cols row ((lines.map (String.map Patch.spelling)).map String.toList)
      = readRows cols row (lines.map String.toList) := by
  induction lines generalizing row with
  | nil => rfl
  | cons line lines ih =>
      simp only [List.map_cons, readRows, String.toList_map, List.length_map, readRow_spelling, ih]

/-- Length that all rows of a picture should have. -/
def width (lines : List String) : Nat := (lines.head?.map String.length).getD 0

theorem ofLines_eq (lines : List String) : ofLines lines
    = (readRows (width lines) 0 (lines.map String.toList)).map fun rows => ⟨width lines, rows⟩ := by
  have cols : ((lines.map String.toList).head?.map List.length).getD 0 = width lines := by
    cases lines <;> simp [width, String.length_toList]
  rw [ofLines, cols]
  cases readRows (width lines) 0 (lines.map String.toList) <;> rfl

theorem ofLines_eq_ok : ofLines lines = .ok l ↔
    l.cols = width lines ∧ readRows (width lines) 0 (lines.map String.toList) = .ok l.rows := by
  rw [ofLines_eq]
  obtain ⟨cols, rows⟩ := l
  cases readRows (width lines) 0 (lines.map String.toList) with
  | error => simp [Except.map]
  | ok read => simp [Except.map, eq_comm]

/-- The first flaw of a picture, row by row. The length of a row is looked at before its marks. -/
inductive FirstFlaw (lines : List String) : Error → Prop where
  | rowLength {sound rest : List String} {line : String} (split : lines = sound ++ line :: rest)
      (before : ∀ other ∈ sound, SoundRow (width lines) other) (ragged : line.length ≠ width lines) :
      FirstFlaw lines (.badSetup (.rowLength sound.length line.length (width lines)))
  | unknownPatch {sound rest : List String} {line : String} {good more : List Char} {bad : Char}
      (split : lines = sound ++ line :: rest) (before : ∀ other ∈ sound, SoundRow (width lines) other)
      (fits : line.length = width lines) (marks : line.toList = good ++ bad :: more)
      (known : ∀ mark ∈ good, mark ∈ Patch.alphabet) (unknown : bad ∉ Patch.alphabet) :
      FirstFlaw lines (.badSetup (.unknownPatch bad sound.length good.length))

theorem ofLines_eq_error_iff : ofLines lines = .error e ↔ FirstFlaw lines e := by
  have reads : ofLines lines = .error e ↔ readRows (width lines) 0 (lines.map String.toList) = .error e := by
    rw [ofLines_eq]
    cases readRows (width lines) 0 (lines.map String.toList) <;> simp [Except.map]
  rw [reads, readRows_eq_error_iff]
  simp only [Nat.zero_add, readRow_eq_error_iff]
  constructor
  · rintro ⟨sound, line, rest, split, before, ⟨ragged, rfl⟩ | ⟨fits, good, bad, more, marks, known, unknown, rfl⟩⟩
    · exact .rowLength split before ragged
    · exact .unknownPatch split before fits marks known unknown
  · rintro (⟨split, before, ragged⟩ | ⟨split, before, fits, marks, known, unknown⟩)
    · exact ⟨_, _, _, split, before, .inl ⟨ragged, rfl⟩⟩
    · exact ⟨_, _, _, split, before, .inr ⟨fits, _, _, _, marks, known, unknown, rfl⟩⟩

/-- The mark of a picture at a place. -/
def markAt? (lines : List String) (c : Coord) : Option Char := (lines[c.row]?).bind fun line => line.toList[c.col]?

/-- A layout shows what a picture does: the picture is drawn again, each patch is the one that its mark names, and
    places touch along their sides unless a mark blocks them. -/
structure Depicts (l : Layout) (lines : List String) : Prop where
  shape : l.shape = (lines.length, width lines)
  drawn : l.lines = lines.map (String.map Patch.spelling)
  text : l.text = String.join (lines.map fun line => line.map Patch.spelling ++ "\n")
  /-- The text has no other line ends than those of the rows. -/
  unbroken : ∀ line ∈ l.lines, '\n' ∉ line.toList
  patch : ∀ c, l.patch? c = (markAt? lines c).bind (Patch.named? c)
  rowMajor : l.patches.map (·.coord) = l.places
  adjacent : ∀ c d axis, (d, axis) ∈ l.adjacent c ↔
    c.axisTo? d = some axis ∧ (markAt? lines c).any (· ≠ '#') ∧ (markAt? lines d).any (· ≠ '#')

theorem sound_of_ofLines (read : ofLines lines = .ok l) : ∀ line ∈ lines, SoundRow (width lines) line :=
  (readRows_isOk_iff ..).mp ⟨l.rows, (ofLines_eq_ok.mp read).2⟩

theorem patch?_of_ofLines (read : ofLines lines = .ok l) (c : Coord) :
    l.patch? c = (markAt? lines c).bind (Patch.named? c) := by
  have here := getElem?_readRows (ofLines_eq_ok.mp read).2 c.row c.col
  rwa [Nat.zero_add] at here

theorem isOpen_of_ofLines (read : ofLines lines = .ok l) (c : Coord) :
    l.isOpen c ↔ (markAt? lines c).any (· ≠ '#') := by
  rw [isOpen, patch?_of_ofLines read]
  cases shown : markAt? lines c with
  | none => simp
  | some mark =>
      obtain ⟨line, listed, found⟩ := Option.bind_eq_some_iff.mp shown
      have known := (sound_of_ofLines read line (List.mem_of_getElem? listed)).2 mark (List.mem_of_getElem? found)
      obtain ⟨named, names⟩ := Option.isSome_iff_exists.mp (Patch.mem_alphabet.mp known)
      have patch : Patch.named? c mark = some { coord := c, kind := named.1, orientation := named.2 } := by
        rw [Patch.named?, names, Option.map_some]
      have blocked := (Patch.named?_eq_some patch).2.2
      simpa [patch] using not_congr blocked

theorem depicts_of_ofLines (read : ofLines lines = .ok l) : l.Depicts lines := by
  obtain ⟨cols, rows⟩ := ofLines_eq_ok.mp read
  have drawn : l.lines = lines.map (String.map Patch.spelling) := lines_readRows rows
  constructor
  case shape =>
    have count := congrArg List.length drawn
    rw [Layout.lines, List.length_map, List.length_map] at count
    rw [shape, count, cols]
  case drawn => exact drawn
  case text =>
    rw [text, drawn, List.map_map]
    rfl
  case unbroken =>
    intro line member
    rw [drawn] at member
    obtain ⟨row, inside, rfl⟩ := List.mem_map.mp member
    rw [String.toList_map]
    intro broken
    obtain ⟨mark, marked, same⟩ := List.mem_map.mp broken
    exact Patch.spelling_ne_newline ((sound_of_ofLines read row inside).2 mark marked) same
  case patch => exact patch?_of_ofLines read
  case rowMajor => exact coords_readRows rows
  case adjacent =>
    intro c d axis
    rw [mem_adjacent, isOpen_of_ofLines read, isOpen_of_ofLines read]
    grind

/-- Pictures that differ in the spelling only are read alike. -/
theorem ofLines_spelling (lines : List String) : ofLines (lines.map (String.map Patch.spelling)) = ofLines lines := by
  have same : width (lines.map (String.map Patch.spelling)) = width lines := by
    cases lines <;> simp [width, ← String.length_toList]
  rw [ofLines_eq, ofLines_eq, same, readRows_spelling]

/-- Which pictures are read, where reading fails, and that what was read can be drawn and read again: the layout stays
    the same. -/
theorem ofLines_pictures (lines : List String) :
    ((∃ l, ofLines lines = .ok l) ↔ ∀ line ∈ lines, SoundRow (width lines) line) ∧
    (∀ e, ofLines lines = .error e ↔ FirstFlaw lines e) ∧
    ∀ l, ofLines lines = .ok l → l.Depicts lines ∧ ofLines l.lines = .ok l := by
  refine ⟨?_, fun e => ofLines_eq_error_iff, fun l read => ?_⟩
  · rw [← readRows_isOk_iff (width lines) 0]
    constructor
    · rintro ⟨l, read⟩
      exact ⟨l.rows, (ofLines_eq_ok.mp read).2⟩
    · rintro ⟨rows, read⟩
      exact ⟨⟨width lines, rows⟩, ofLines_eq_ok.mpr ⟨rfl, read⟩⟩
  · have depicts := depicts_of_ofLines read
    refine ⟨depicts, ?_⟩
    rw [depicts.drawn, ofLines_spelling]
    exact read

/-- Both spellings of an external patch in one picture, a row that is too long, and a mark that names nothing. -/
theorem ofLines_pictures_small :
    (∃ l, ofLines ["Ze.", "#Ex"] = .ok l ∧ l.text = "ZE.\n#Ex\n" ∧ l.Depicts ["Ze.", "#Ex"] ∧
      ofLines ["ZE.", "#Ex"] = .ok l) ∧
    FirstFlaw ["Z.", "?.X", "??"] (.badSetup (.rowLength 1 3 2)) ∧
    FirstFlaw ["Z.", "X?", "."] (.badSetup (.unknownPatch '?' 1 1)) := by
  have runs : (ofLines ["Ze.", "#Ex"]).toOption.any fun l => l.text == "ZE.\n#Ex\n" && l.lines == ["ZE.", "#Ex"] := by
    decide +kernel
  obtain ⟨l, read, runs⟩ := exists_ok_of_any runs
  simp only [Bool.and_eq_true, beq_iff_eq] at runs
  obtain ⟨text, lines⟩ := runs
  obtain ⟨depicts, again⟩ := (ofLines_pictures ["Ze.", "#Ex"]).2.2 l read
  rw [lines] at again
  refine ⟨⟨l, read, text, depicts, again⟩, ?_, ?_⟩
  · exact ((ofLines_pictures _).2.1 _).mp (by decide +kernel)
  · exact ((ofLines_pictures _).2.1 _).mp (by decide +kernel)

end Layout

end LatticeSurgery
