/-
# DataInlay.Proofs.InPlace — a file that is converted onto itself

The output is created when the reader has only its first block, and creating it empties
the file. From then on the reader meets the conversion's own text: behind the first
block it finds what has been stored of the declaration by that time. `SelfReads` is that
reading without blocks and buffers, as lines that come out of a file which grows by what
the lines before have left in the store.

The conversion ends exactly when this reading comes to an end, and the file then holds the
declaration of the lines so read (`turns_eq_some_iff`). They need not be the lines
of the file. `convertFile_onto_itself` states when they are: for a file
of at most one block, when the text stored before the end is no longer than the file;
and for a longer file only if the reading happens to give the same data. As long as
nothing is stored behind the first block, all data behind it is lost, and the conversion
reports success.
-/
import DataInlay.Proofs.BetweenFiles
import DataInlay.Proofs.Decoding
import Mathlib.Data.List.Infix

namespace DataInlay

/-! ## What the reader meets -/

/-- The block buffer of a conversion that has written the literals of some data and not
closed the declaration. -/
def bodyBuffer (options : Options) (data : Bytes) : BlockBuffer :=
  BlockBuffer.storeAll (bodyPieces options data)

/-- What the file that is written to holds at that time. -/
def storedBody (options : Options) (data : Bytes) : Bytes := (bodyBuffer options data).stored

theorem bodyPieces_append (options : Options) (a b : Bytes) :
    bodyPieces options (a ++ b)
      = bodyPieces options a ++ layoutPieces options.width a.length b := by
  rw [bodyPieces, bodyPieces, layoutPieces_append, Nat.zero_add, List.append_assoc]

/-- More data only adds to the file. -/
theorem storedBody_isPrefix (options : Options) (a b : Bytes) :
    storedBody options a <+: storedBody options (a ++ b) := by
  rw [storedBody, storedBody, bodyBuffer, bodyBuffer, bodyPieces_append]
  exact BlockBuffer.stored_isPrefix _ _

/-- As long as a block has room for it all, the file is empty. -/
theorem storedBody_eq_nil {options : Options} {data : Bytes}
    (h : (header options.symbol ++ layout options.width 0 data).length < BlockBuffer.blockSize) :
    storedBody options data = [] :=
  BlockBuffer.stored_of_lt (by rwa [bodyPieces_flatten])

section Reading

variable (options : Options) (first : Bytes)

/-- The file as its reader meets it when these lines have been taken: it begins with the
block that was read before it was emptied, and goes on with what is stored. -/
def fileMet (taken : List Bytes) : Bytes :=
  first ++ (storedBody options (taken.flatMap cleanLine)).drop first.length

/-- What the reader of the file still meets when it has taken these lines. -/
def unread (taken : List Bytes) : Bytes :=
  (fileMet options first taken).drop taken.flatten.length

/-- A reader that has taken some lines goes on to take others, and is then at the end. -/
inductive SelfReads : List Bytes → List Bytes → Prop
  | ended {taken : List Bytes} : unread options first taken = [] → SelfReads taken []
  | line {taken more : List Bytes} {line : Bytes} :
      (lines (unread options first taken)).head? = some line →
      SelfReads (taken ++ [line]) more → SelfReads taken (line :: more)

variable {options first} {taken more : List Bytes}

/-- There is at most one such reading. -/
theorem SelfReads.unique {more' : List Bytes} (h : SelfReads options first taken more)
    (h' : SelfReads options first taken more') : more = more' := by
  induction h generalizing more' with
  | ended hended =>
    cases h' with
    | ended _ => rfl
    | line hline _ =>
      rw [hended] at hline
      exact absurd hline (by simp)
  | line hline _ ih =>
    cases h' with
    | ended hended =>
      rw [hended] at hline
      exact absurd hline (by simp)
    | line hline' hrest =>
      obtain rfl := Option.some.inj (hline.symm.trans hline')
      rw [ih hrest]

/-- Taking a line leaves the file that the reader meets as it is, or longer. -/
theorem fileMet_isPrefix (options : Options) (first : Bytes) (taken more : List Bytes) :
    fileMet options first taken <+: fileMet options first (taken ++ more) := by
  rw [fileMet, fileMet, List.flatMap_append]
  exact (List.prefix_append_right_inj first).mpr ((storedBody_isPrefix options _ _).drop _)

/-- At the end, the reader has taken the whole file that it met. -/
theorem SelfReads.flatten_eq (h : SelfReads options first taken more)
    (htaken : taken.flatten <+: fileMet options first taken) :
    (taken ++ more).flatten = fileMet options first (taken ++ more) := by
  induction h with
  | ended hended =>
    rw [unread, List.drop_eq_nil_iff] at hended
    rw [List.append_nil]
    exact htaken.eq_of_length_le hended
  | @line taken more line hline _ ih =>
    rw [← List.singleton_append, ← List.append_assoc]
    apply ih
    -- a line is the beginning of what is unread, and the file only becomes longer
    obtain ⟨-, rfl⟩ := head?_lines_eq_some_iff.mp hline
    have met : taken.flatten ++ unread options first taken = fileMet options first taken :=
      List.prefix_iff_eq_append.mp htaken
    have further := (List.prefix_append_right_inj taken.flatten).mpr
      (firstLine_isPrefix (unread options first taken))
    rw [met] at further
    rw [List.flatten_concat]
    exact further.trans (fileMet_isPrefix options first taken _)

/-- While what is stored lies within the length of the first block, the reader meets the
rest of that block and nothing else. -/
theorem unread_eq_drop
    (hstored : (storedBody options (taken.flatMap cleanLine)).length ≤ first.length) :
    unread options first taken = first.drop taken.flatten.length := by
  rw [unread, fileMet, List.drop_eq_nil_of_le hstored, List.append_nil]

/-- So when all that is stored of the block's lines does, these are the lines it takes. -/
theorem selfReads_lines (hstored : (storedBody options (dataOf first)).length ≤ first.length) :
    SelfReads options first [] (lines first) := by
  -- by the lines that are still to be taken
  have steps : ∀ more taken, lines first = taken ++ more → SelfReads options first taken more := by
    intro more
    induction more with
    | nil =>
      intro taken htaken
      rw [List.append_nil] at htaken
      subst htaken
      apply SelfReads.ended
      rw [unread_eq_drop hstored, lines_flatten, List.drop_length]
    | cons line more ih =>
      intro taken htaken
      have sofar := storedBody_isPrefix options (taken.flatMap cleanLine)
        ((line :: more).flatMap cleanLine)
      rw [← List.flatMap_append, ← htaken] at sofar
      apply SelfReads.line
      · rw [unread_eq_drop (sofar.length_le.trans hstored), lines_drop htaken]
        rfl
      · apply ih
        rw [htaken, List.append_assoc, List.singleton_append]
  exact steps (lines first) [] rfl

end Reading

/-! ## Steps until there is a result -/

/-- After some steps from the state, one has the result. -/
inductive ComesTo {σ τ : Type} (step : σ → σ ⊕ τ) : σ → τ → Prop
  | now {s : σ} {result : τ} : step s = .inr result → ComesTo step s result
  | later {s next : σ} {result : τ} : step s = .inl next → ComesTo step next result →
      ComesTo step s result

theorem untilResult_eq_some_iff {σ τ : Type} {step : σ → σ ⊕ τ} {s : σ} {result : τ} :
    untilResult step s = some result ↔ ComesTo step s result := by
  constructor
  · intro h
    -- a result is that of finitely many steps, and the induction is on these
    refine untilResult.partial_correctness step (ComesTo step) ?_ s result h
    intro further ih s result h
    split at h
    · next hnow => exact .now (Option.some.inj h ▸ hnow)
    · next hlater => exact .later hlater (ih _ _ h)
  · intro h
    induction h with
    | now hnow => rw [untilResult, hnow]
    | later hlater _ ih => rw [untilResult, hlater]; exact ih

/-! ## The turns of the conversion -/

section Turns

variable {options : Options} {first : Bytes} {taken : List Bytes}

/-- A conversion of a file onto itself that has taken these lines. -/
def underWay (options : Options) (taken : List Bytes) : Progress BlockBuffer :=
  Progress.ofLines options taken (bodyBuffer options (taken.flatMap cleanLine))

theorem takeLine_underWay (line : Bytes) :
    (underWay options taken).takeLine line = .done (underWay options (taken ++ [line])) := by
  have raw : writeAll (underWay options taken).writer.sink
      (layoutPieces (underWay options taken).writer.width (underWay options taken).writer.written
        (cleanLine line)) = .done (bodyBuffer options ((taken ++ [line]).flatMap cleanLine)) := by
    show writeAll (BlockBuffer.storeAll _) (layoutPieces options.width (0 + _) _) = _
    rw [BlockBuffer.writeAll_storeAll, bodyBuffer, List.flatMap_append, bodyPieces_append,
      Nat.zero_add, List.flatMap_singleton]
  rw [((underWay options taken).takeLine_follows line).of_done raw]
  show Attempt.done ((Progress.through _ taken _).through [line] _) = _
  rw [Progress.through_through]
  rfl

theorem finish_underWay (options : Options) (taken : List Bytes) :
    ∃ b, (underWay options taken).finish = .done ((underWay options taken).closed b)
      ∧ b.stored = declaration options.symbol options.width (taken.flatMap cleanLine) := by
  have raw : writeAll (underWay options taken).writer.sink
      (endPieces (underWay options taken).writer.width (underWay options taken).writer.written)
        = .done (BlockBuffer.storeAll (bodyPieces options (taken.flatMap cleanLine)
          ++ endPieces options.width (taken.flatMap cleanLine).length)) := by
    show writeAll (BlockBuffer.storeAll _) (endPieces options.width (0 + _)) = _
    rw [BlockBuffer.writeAll_storeAll, Nat.zero_add]
  obtain ⟨b, hflush, hstored⟩ := BlockBuffer.flush_storeAll
    (bodyPieces options (taken.flatMap cleanLine)
      ++ endPieces options.width (taken.flatMap cleanLine).length)
  refine ⟨b, (underWay options taken).finish_follows.of_done ?_, ?_⟩
  · rw [raw]
    exact hflush
  · rw [hstored, pieces_flatten]

theorem closed_underWay_summary (options : Options) (taken : List Bytes) (b : BlockBuffer) :
    ((underWay options taken).closed b).summary = Summary.ofLines taken := by
  simp [Progress.closed, underWay, Progress.ofLines, Progress.begun, Progress.through,
    Summary.ofLines, Writer.advance]

/-- The reader began with the first block and has given these lines out. -/
def HasTaken (options : Options) (first : Bytes) (taken : List Bytes) (reader : BlockReader) :
    Prop :=
  BlockReader.Gives (underWay options taken).stored ⟨first, first.length⟩ taken.flatten reader

/-- The bytes ahead of the reader are those that are unread. -/
theorem ahead_eq_unread {reader : BlockReader} (hreader : HasTaken options first taken reader) :
    reader.ahead (underWay options taken).stored = unread options first taken := by
  have ahead := hreader.ahead_eq
  show _ = ((⟨first, first.length⟩ : BlockReader).ahead (underWay options taken).stored).drop _
  rw [ahead, List.drop_left]

/-- Taking a line leaves the reader where it is, in a file that has become longer. -/
theorem gives_underWay {reader reader' : BlockReader} {bytes : Bytes} (line : Bytes)
    (h : BlockReader.Gives (underWay options taken).stored reader bytes reader') :
    BlockReader.Gives (underWay options (taken ++ [line])).stored reader bytes reader' := by
  rcases h with ⟨block, hblock, rest⟩
  have longer : (underWay options taken).stored.toList
      <+: (underWay options (taken ++ [line])).stored.toList := by
    show storedBody options _ <+: storedBody options ((taken ++ [line]).flatMap cleanLine)
    rw [List.flatMap_append]
    exact storedBody_isPrefix options _ _
  exact ⟨block, hblock.trans (longer.drop _), rest⟩

section OneTurn

variable {reader : BlockReader} (hreader : HasTaken options first taken reader)

include hreader

/-- A turn takes the first line of what is unread, and closes the declaration if there is
none. -/
theorem convertTurn_underWay : convertTurn (reader, underWay options taken) =
    if unread options first taken = [] then .inr (underWay options taken).finish
    else .inl ((reader.readLine (underWay options taken).stored).2,
      underWay options (taken ++ [firstLine (unread options first taken)])) := by
  obtain ⟨hline, -⟩ := reader.readLine_spec (underWay options taken).stored
  rw [ahead_eq_unread hreader] at hline
  rw [convertTurn]
  generalize reader.readLine (underWay options taken).stored = read at hline
  obtain ⟨line, reader'⟩ := read
  cases line with
  | nil => rw [if_pos (firstLine_eq_nil.mp hline.symm)]
  | cons b line =>
    have hmore : unread options first taken ≠ [] := by
      intro hended
      rw [firstLine_eq_nil.mpr hended] at hline
      cases hline
    rw [if_neg hmore, ← hline]
    dsimp only
    rw [takeLine_underWay]

/-- Behind it, the reader has given that line out as well. -/
theorem hasTaken_turn : HasTaken options first (taken ++ [firstLine (unread options first taken)])
    (reader.readLine (underWay options taken).stored).2 := by
  obtain ⟨-, hgives⟩ := reader.readLine_spec (underWay options taken).stored
  rw [ahead_eq_unread hreader] at hgives
  rw [HasTaken, List.flatten_concat]
  exact gives_underWay _ (hreader.trans hgives)

end OneTurn

/-- What turns come to closes the declaration behind a reading that ends, -/
theorem selfReads_of_comesTo {state : BlockReader × Progress BlockBuffer}
    {attempt : Attempt (Progress BlockBuffer)} (h : ComesTo convertTurn state attempt)
    {reader : BlockReader} (hstate : state = (reader, underWay options taken))
    (hreader : HasTaken options first taken reader) :
    ∃ more, SelfReads options first taken more
      ∧ (underWay options (taken ++ more)).finish = attempt := by
  induction h generalizing reader taken with
  | now hturn =>
    rw [hstate, convertTurn_underWay hreader] at hturn
    split at hturn
    · next hended =>
      refine ⟨[], .ended hended, ?_⟩
      rw [List.append_nil]
      exact Sum.inr.inj hturn
    · cases hturn
  | later hturn _ ih =>
    rw [hstate, convertTurn_underWay hreader] at hturn
    split at hturn
    · cases hturn
    · next hmore =>
      obtain ⟨more, hreads, hfinish⟩ := ih (Sum.inl.inj hturn).symm (hasTaken_turn hreader)
      rw [List.append_assoc, List.singleton_append] at hfinish
      exact ⟨_ :: more, .line (head?_lines_eq_some_iff.mpr ⟨hmore, rfl⟩) hreads, hfinish⟩

/-- and where a reading comes to an end, the turns do. -/
theorem comesTo_of_selfReads {more : List Bytes}
    (hreads : SelfReads options first taken more) {reader : BlockReader}
    (hreader : HasTaken options first taken reader) :
    ComesTo convertTurn (reader, underWay options taken)
      (underWay options (taken ++ more)).finish := by
  induction hreads generalizing reader with
  | ended hended =>
    apply ComesTo.now
    rw [convertTurn_underWay hreader, if_pos hended, List.append_nil]
  | line hline _ ih =>
    obtain ⟨hmore, rfl⟩ := head?_lines_eq_some_iff.mp hline
    rw [← List.singleton_append, ← List.append_assoc]
    exact .later (by rw [convertTurn_underWay hreader, if_neg hmore]) (ih (hasTaken_turn hreader))

/-- **The turns end exactly when the reading comes to an end**, and then with the lines that
were read. -/
theorem turns_eq_some_iff {reader : BlockReader}
    (hreader : HasTaken options first taken reader) {attempt : Attempt (Progress BlockBuffer)} :
    untilResult convertTurn (reader, underWay options taken) = some attempt ↔
      ∃ more, SelfReads options first taken more
        ∧ (underWay options (taken ++ more)).finish = attempt := by
  rw [untilResult_eq_some_iff]
  constructor
  · exact fun h => selfReads_of_comesTo h rfl hreader
  · rintro ⟨more, hreads, rfl⟩
    exact comesTo_of_selfReads hreads hreader

end Turns

/-! ## The whole conversion -/

section Whole

variable (content : Bytes) (options : Options)

theorem convertInPlace_eq :
    convertInPlace content options =
      match untilResult convertTurn (.fill {} content.toArray, underWay options []) with
      | some attempt => (Report.ofAttempt attempt).course
      | none => { sink := bodyBuffer options [], result := .endless } := by
  have taken := (BlockBuffer.storeAll_spec (headerPieces options.symbol)).1
  rw [convertInPlace, (begun_follows (BlockBuffer.ofDevice (.store #[])) options).of_done taken]
  have body : headerPieces options.symbol = bodyPieces options [] := (List.append_nil _).symm
  rw [body]
  rfl

/-- At its start, the reader has the first block. -/
theorem hasTaken_nothing :
    HasTaken options (content.take BlockBuffer.blockSize) [] (.fill {} content.toArray) := by
  have filled : BlockReader.fill {} content.toArray
      = ⟨content.take BlockBuffer.blockSize, (content.take BlockBuffer.blockSize).length⟩ := by
    simp [BlockReader.fill, BlockReader.block]
  rw [filled]
  exact ⟨[], List.nil_prefix, rfl, List.append_nil _⟩

variable {content options}

/-- Where the reading comes to an end, the conversion is that of the lines so read. -/
theorem convertInPlace_of_reads {taken : List Bytes}
    (hreads : SelfReads options (content.take BlockBuffer.blockSize) [] taken) :
    (convertInPlace content options).result = .ok (.ofLines taken)
      ∧ (convertInPlace content options).sink.stored
        = declaration options.symbol options.width (taken.flatMap cleanLine) := by
  obtain ⟨b, hclosed, hb⟩ := finish_underWay options taken
  rw [convertInPlace_eq, (turns_eq_some_iff (hasTaken_nothing content options)).mpr
    ⟨taken, hreads, hclosed⟩]
  exact ⟨congrArg Conclusion.ok (closed_underWay_summary options taken b), hb⟩

/-- Where it does not, neither does the conversion. -/
theorem convertInPlace_of_endless
    (hreads : ¬ ∃ taken, SelfReads options (content.take BlockBuffer.blockSize) [] taken) :
    (convertInPlace content options).result = .endless := by
  rw [convertInPlace_eq]
  cases hturned : untilResult convertTurn (.fill {} content.toArray, underWay options []) with
  | none => rfl
  | some attempt =>
    obtain ⟨taken, ended, -⟩ :=
      (turns_eq_some_iff (hasTaken_nothing content options)).mp hturned
    exact absurd ⟨taken, ended⟩ hreads

theorem convertInPlace_endless_iff : (convertInPlace content options).result = .endless ↔
    ¬ ∃ taken, SelfReads options (content.take BlockBuffer.blockSize) [] taken := by
  constructor
  · rintro hresult ⟨taken, hreads⟩
    cases hresult.symm.trans (convertInPlace_of_reads hreads).1
  · exact convertInPlace_of_endless

/-- **The outcome of a conversion of a file onto itself.** It ends well exactly when the
reading that starts with the first block comes to an end, and then it is the conversion
of the lines so read. -/
theorem convertInPlace_outcome (s : Summary) (file : Bytes) :
    ((convertInPlace content options).result = .ok s
        ∧ (convertInPlace content options).sink.stored = file) ↔
      ∃ taken, SelfReads options (content.take BlockBuffer.blockSize) [] taken
        ∧ s = .ofLines taken
        ∧ file = declaration options.symbol options.width (taken.flatMap cleanLine) := by
  constructor
  · rintro ⟨hresult, hstored⟩
    by_cases hends : ∃ taken, SelfReads options (content.take BlockBuffer.blockSize) [] taken
    · obtain ⟨taken, hreads⟩ := hends
      obtain ⟨hok, hheld⟩ := convertInPlace_of_reads hreads
      exact ⟨taken, hreads, Conclusion.ok.inj (hresult.symm.trans hok), hstored.symm.trans hheld⟩
    · cases hresult.symm.trans (convertInPlace_of_endless hends)
  · rintro ⟨taken, hreads, rfl, rfl⟩
    exact convertInPlace_of_reads hreads

end Whole

/-! ## From a path to the same place -/

/-- What is promised of a conversion of `content` that ends well with summary `s`: the
file at `l` holds the text of the content's declaration, and all of the content was read. -/
def FileReport.Keeps (report : FileReport) (l : Location) (content : Bytes) (options : Options)
    (s : Summary) : Prop :=
  s.bytesRead = content.length ∧ ∃ text, transformToString content options = .ok text
    ∧ report.files.get? l = some (.file (utf8 text))

/-- A file that holds the declaration of some lines keeps the promise for `content` exactly
when they are as long as the content and clean to the same data. -/
theorem FileReport.keeps_iff {report : FileReport} {l : Location} {content : Bytes}
    {options : Options} {taken : List Bytes}
    (hheld : report.files.get? l
      = some (.file (declaration options.symbol options.width (taken.flatMap cleanLine)))) :
    report.Keeps l content options (.ofLines taken) ↔
      taken.flatten.length = content.length ∧ taken.flatMap cleanLine = dataOf content := by
  obtain ⟨text, htext, hutf8⟩ := transformToString_eq content options
  constructor
  · intro h
    rcases h with ⟨hread, text', htext', hfile⟩
    obtain rfl : text = text' := Except.ok.inj (htext.symm.trans htext')
    rw [hheld, hutf8] at hfile
    have same := Entry.file.inj (Option.some.inj hfile)
    exact ⟨hread, declaration_inj same⟩
  · intro h
    rcases h with ⟨hread, hdata⟩
    refine ⟨hread, text, htext, ?_⟩
    rw [hheld, hutf8, hdata]

theorem dataOf_lineFeeds (n : Nat) : dataOf (List.replicate n Ascii.lineFeed) = [] := by
  induction n with
  | zero => rfl
  | succ n ih =>
    rw [List.replicate_succ, ← List.nil_append (_ :: _), dataOf_append_lineFeed List.not_mem_nil,
      ih]
    decide +kernel

section SamePlace

variable {t : FileTree} {input output : Path} {l : Location} {content : Bytes} (options : Options)
  (hinput : t.locate input = .ok l) (houtput : t.locate output = .ok l)
  (hfile : t.get? l = some (.file content))

include hinput houtput hfile

/-- Where both paths lead to one file, it is left with what the conversion stored in it. -/
theorem convertFile_same_place :
    (convertFile t input output options).files.get? l
        = some (.file (convertInPlace content options).sink.stored)
      ∧ (convertFile t input output options).result
        = (convertInPlace content options).result.mapError (.withPaths input output) := by
  have hroot : l ≠ [] := by
    rintro rfl
    cases hfile
  have opened := FileTree.openInput_of_file hinput hfile
  have created := FileTree.create_of_creatable houtput (.inr ⟨content, hfile⟩)
  have emptied : (t.set l (.file [])).get? l = some (.file []) := by
    rw [FileTree.get?_set t hroot, if_pos rfl]
  have same : convertToFile (.bytes content) (l = l) options = convertInPlace content options := by
    rw [decide_eq_true rfl]
    rfl
  rw [convertFile_to_file options opened created emptied, same]
  refine ⟨?_, rfl⟩
  show FileTree.get? (FileTree.set _ l _) l = _
  rw [FileTree.get?_set _ hroot, if_pos rfl]

/-- It never ends where the reading does not. -/
theorem convertFile_in_place_endless_iff :
    (convertFile t input output options).result = .endless ↔
      ¬ ∃ taken, SelfReads options (content.take BlockBuffer.blockSize) [] taken := by
  rw [(convertFile_same_place options hinput houtput hfile).2, Conclusion.mapError_eq_endless_iff,
    convertInPlace_endless_iff]

/-- What a conversion from a path to the same place comes to when it ends well. -/
theorem convertFile_outcome (s : Summary) (file : Bytes) :
    ((convertFile t input output options).result = .ok s
        ∧ (convertFile t input output options).files.get? l = some (.file file)) ↔
      ∃ taken, SelfReads options (content.take BlockBuffer.blockSize) [] taken
        ∧ s = .ofLines taken
        ∧ file = declaration options.symbol options.width (taken.flatMap cleanLine) := by
  obtain ⟨hheld, hresult⟩ := convertFile_same_place options hinput houtput hfile
  rw [← convertInPlace_outcome, hresult, hheld, Conclusion.mapError_eq_ok_iff]
  simp

/-- The promise is kept by all good ends exactly when the reading, if it ends, has read as
much as the file held and the same data. -/
theorem convertFile_keeps_iff :
    (∀ s, (convertFile t input output options).result = .ok s →
        (convertFile t input output options).Keeps l content options s) ↔
      ∀ taken, SelfReads options (content.take BlockBuffer.blockSize) [] taken →
        taken.flatten.length = content.length ∧ taken.flatMap cleanLine = dataOf content := by
  constructor
  · intro hkeeps taken hreads
    obtain ⟨hresult, hheld⟩ :=
      (convertFile_outcome options hinput houtput hfile _ _).mpr ⟨taken, hreads, rfl, rfl⟩
    exact (FileReport.keeps_iff hheld).mp (hkeeps _ hresult)
  · intro hsame s hresult
    obtain ⟨hheld, -⟩ := convertFile_same_place options hinput houtput hfile
    obtain ⟨taken, hreads, rfl, hdata⟩ :=
      (convertFile_outcome options hinput houtput hfile _ _).mp ⟨hresult, hheld⟩
    rw [hdata] at hheld
    exact (FileReport.keeps_iff hheld).mpr (hsame taken hreads)

/-- When all that is stored before the end lies within the length of the first block, that
block is what is converted. -/
theorem convertFile_of_stored_le
    (hstored : (storedBody options (dataOf (content.take BlockBuffer.blockSize))).length
      ≤ (content.take BlockBuffer.blockSize).length) :
    (convertFile t input output options).result
        = .ok (.ofLines (lines (content.take BlockBuffer.blockSize)))
      ∧ (convertFile t input output options).files.get? l
        = some (.file (declaration options.symbol options.width
          (dataOf (content.take BlockBuffer.blockSize)))) := by
  apply (convertFile_outcome options hinput houtput hfile _ _).mpr
  exact ⟨_, selfReads_lines hstored, rfl, rfl⟩

/-- The promise is kept only when the file and what is stored behind its first block before
the end are, put together, as long as the content. -/
theorem stored_length_of_keeps {s : Summary}
    (hresult : (convertFile t input output options).result = .ok s)
    (hkeeps : (convertFile t input output options).Keeps l content options s) :
    content.length = (content.take BlockBuffer.blockSize).length
      + ((storedBody options (dataOf content)).length
        - (content.take BlockBuffer.blockSize).length) := by
  obtain ⟨hheld, -⟩ := convertFile_same_place options hinput houtput hfile
  obtain ⟨taken, hreads, rfl, hdata⟩ :=
    (convertFile_outcome options hinput houtput hfile _ _).mp ⟨hresult, hheld⟩
  rw [hdata] at hheld
  obtain ⟨hlength, hsame⟩ := (FileReport.keeps_iff hheld).mp hkeeps
  have met := congrArg List.length (hreads.flatten_eq List.nil_prefix)
  rw [List.nil_append, hlength, fileMet, hsame, List.length_append, List.length_drop] at met
  exact met

/-- A file of at most one block is converted well exactly when the text that is stored
before the end is no longer than the file. -/
theorem convertFile_of_one_block (hblock : content.length ≤ BlockBuffer.blockSize) :
    (∃ s, (convertFile t input output options).result = .ok s
        ∧ (convertFile t input output options).Keeps l content options s) ↔
      (storedBody options (dataOf content)).length ≤ content.length := by
  have whole : content.take BlockBuffer.blockSize = content := List.take_of_length_le hblock
  constructor
  · intro h
    rcases h with ⟨s, hresult, hkeeps⟩
    have met := stored_length_of_keeps options hinput houtput hfile hresult hkeeps
    rw [whole] at met
    omega
  · intro hstored
    obtain ⟨hresult, hheld⟩ := convertFile_of_stored_le options hinput houtput hfile
      (by rwa [whole])
    refine ⟨_, hresult, (FileReport.keeps_iff hheld).mpr ?_⟩
    rw [whole, lines_flatten]
    exact ⟨rfl, rfl⟩

/-- A longer file is converted well only when the text that is stored before the end is
exactly as long as the file. -/
theorem convertFile_of_more_blocks (hblock : BlockBuffer.blockSize < content.length)
    (h : ∃ s, (convertFile t input output options).result = .ok s
      ∧ (convertFile t input output options).Keeps l content options s) :
    (storedBody options (dataOf content)).length = content.length := by
  rcases h with ⟨s, hresult, hkeeps⟩
  have met := stored_length_of_keeps options hinput houtput hfile hresult hkeeps
  rw [List.length_take, Nat.min_eq_left (Nat.le_of_lt hblock)] at met
  omega

/-- Of a longer file, only the first block is converted when nothing is stored behind it. -/
theorem convertFile_loses_rest (hblock : BlockBuffer.blockSize < content.length)
    (hstored : (storedBody options (dataOf (content.take BlockBuffer.blockSize))).length
      ≤ BlockBuffer.blockSize) :
    ∃ s, (convertFile t input output options).result = .ok s
      ∧ s.bytesRead = BlockBuffer.blockSize
      ∧ (convertFile t input output options).files.get? l
        = some (.file (declaration options.symbol options.width
          (dataOf (content.take BlockBuffer.blockSize)))) := by
  have full : (content.take BlockBuffer.blockSize).length = BlockBuffer.blockSize := by
    rw [List.length_take, Nat.min_eq_left (Nat.le_of_lt hblock)]
  obtain ⟨hresult, hheld⟩ := convertFile_of_stored_le options hinput houtput hfile
    (hstored.trans (Nat.le_of_eq full.symm))
  refine ⟨_, hresult, ?_, hheld⟩
  show (lines _).flatten.length = _
  rw [lines_flatten, full]

end SamePlace

/-- **Conversion of a file onto itself.** It ends well exactly when the reading of the first
block, and then of the conversion's own text, comes to an end, and otherwise it does not end.
The file then holds the declaration of the lines so read. So it holds the declaration of what
it held before exactly when those lines are as long as that and clean to the same data. For a
file of at most one block this says that the text stored before the end is no longer than the
file, and of a longer one it requires that this text is exactly as long. All behind the first
block is lost without an error if the text stored does not reach behind that block. -/
theorem convertFile_onto_itself {t : FileTree} {input output : Path} {l : Location}
    {content : Bytes} (options : Options) (hinput : t.locate input = .ok l)
    (houtput : t.locate output = .ok l) (hfile : t.get? l = some (.file content)) :
    let report := convertFile t input output options
    let first := content.take BlockBuffer.blockSize
    (∀ s file, (report.result = .ok s ∧ report.files.get? l = some (.file file)) ↔
        ∃ taken, SelfReads options first [] taken ∧ s = .ofLines taken
          ∧ file = declaration options.symbol options.width (taken.flatMap cleanLine))
    ∧ (report.result = .endless ↔ ¬ ∃ taken, SelfReads options first [] taken)
    ∧ ((∀ s, report.result = .ok s → report.Keeps l content options s) ↔
        ∀ taken, SelfReads options first [] taken →
          taken.flatten.length = content.length ∧ taken.flatMap cleanLine = dataOf content)
    ∧ (content.length ≤ BlockBuffer.blockSize →
        ((∃ s, report.result = .ok s ∧ report.Keeps l content options s) ↔
          (storedBody options (dataOf content)).length ≤ content.length))
    ∧ (BlockBuffer.blockSize < content.length →
        (∃ s, report.result = .ok s ∧ report.Keeps l content options s) →
        (storedBody options (dataOf content)).length = content.length)
    ∧ (BlockBuffer.blockSize < content.length →
        (storedBody options (dataOf first)).length ≤ BlockBuffer.blockSize →
        ∃ s, report.result = .ok s ∧ s.bytesRead = BlockBuffer.blockSize
          ∧ report.files.get? l
            = some (.file (declaration options.symbol options.width (dataOf first)))) :=
  ⟨convertFile_outcome options hinput houtput hfile,
    convertFile_in_place_endless_iff options hinput houtput hfile,
    convertFile_keeps_iff options hinput houtput hfile,
    convertFile_of_one_block options hinput houtput hfile,
    convertFile_of_more_blocks options hinput houtput hfile,
    convertFile_loses_rest options hinput houtput hfile⟩

/-- A file of line feeds, as many as a block holds, and one byte behind them: the
conversion reports success and the byte is gone. -/
theorem convertFile_loses_second_block :
    let content : Bytes := List.replicate BlockBuffer.blockSize Ascii.lineFeed ++ [0x78]
    let t : FileTree := { entries := [([[0x61]], .file content)], workingDirectory := [] }
    let report := convertFile t [0x61] [0x61] {}
    ∃ s, report.result = .ok s ∧ ¬ report.Keeps [[0x61]] content {} s := by
  intro content t report
  have hlocate : t.locate [0x61] = .ok [[0x61]] := rfl
  have hfile : t.get? [[0x61]] = some (.file content) := rfl
  have hfirst : content.take BlockBuffer.blockSize
      = List.replicate BlockBuffer.blockSize Ascii.lineFeed :=
    List.take_left' List.length_replicate
  have hlength : content.length = BlockBuffer.blockSize + 1 := by
    rw [List.length_append, List.length_replicate, List.length_singleton]
  obtain ⟨-, -, -, -, -, loses⟩ := convertFile_onto_itself {} hlocate hlocate hfile
  rw [hfirst, dataOf_lineFeeds, storedBody_eq_nil (by decide +kernel)] at loses
  obtain ⟨s, hresult, hread, -⟩ := loses (hlength ▸ Nat.lt_succ_self _) (Nat.zero_le _)
  refine ⟨s, hresult, ?_⟩
  intro hkeeps
  have := hread.symm.trans hkeeps.1
  omega

end DataInlay
