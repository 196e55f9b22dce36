import Sylar.Lib.Decimals
import Sylar.Log.LogDefine
import Sylar.Log.PatternScan

/-!
# The pattern language of `LogFormatter`

A pattern is spelled by pieces: literal texts, escapes and conversions. Without an
escape the formatter finds the pieces that were spelled and writes what each of them
stands for. Of an escape it takes one byte and starts over at the second `%`.

What `strftime` makes of a format and the time of an event is a parameter of the event.
-/

namespace Sylar.Log

open Sylar.Lib
open Sylar.Http (Text ascii)

/-- The fields of a `LogEvent` that the items write. -/
structure LogEvent where
  content : Text
  elapse : UInt32
  loggerName : Text
  threadId : UInt32
  fiberId : UInt32
  threadName : Text
  file : Text
  line : Int32
  /-- The buffer after `strftime` with a format and the time of the event. -/
  strftime : Text → Text

/-- `FormatItem::format`. -/
def FormatItem.format (level : LogLevel) (event : LogEvent) : FormatItem → Text
  | .string str => str
  | .message => event.content
  | .level => level.toString
  | .elapse => Numerals.decimal event.elapse.toNat
  | .name => event.loggerName
  | .threadId => Numerals.decimal event.threadId.toNat
  | .newLine => ascii "\n"
  | .dateTime format =>
      event.strftime (if format = [] then ascii "%Y-%m-%d %H:%M:%S" else format)
  | .filename => event.file
  | .line => Numerals.decimalInt event.line.toInt
  | .tab => ascii "\t"
  | .fiberId => Numerals.decimal event.fiberId.toNat
  | .threadName => event.threadName

/-- `LogFormatter::format`. -/
def LogFormatter.format (f : LogFormatter) (level : LogLevel) (event : LogEvent) : Text :=
  f.items.flatMap (FormatItem.format level event)

/-- A piece of a pattern. -/
inductive Piece where
  | text (str : Text)
  | escape
  | conversion (letter : UInt8) (fmt : Option Text)
  deriving DecidableEq, Repr

namespace Piece

/-- What spells the piece. -/
def source : Piece → Text
  | .text str => str
  | .escape => [37, 37]
  | .conversion letter none => [37, letter]
  | .conversion letter (some fmt) => 37 :: letter :: 123 :: fmt ++ [125]

/-- What the piece stands for. -/
def render (level : LogLevel) (event : LogEvent) : Piece → Text
  | .text str => str
  | .escape => [37]
  | .conversion letter fmt =>
      (((formatItems (fmt.getD [])).lookup [letter]).map (FormatItem.format level event)).getD []

end Piece

/-- The pattern that the pieces spell. -/
def sources (ps : List Piece) : Text := ps.flatMap Piece.source

/-- The name of a conversion is in the table. -/
def IsKnown (str : Text) : Prop := ((formatItems []).lookup str).isSome

/-- Literal texts have no `%`; conversions are in the table, their formats have no closing
brace, and where they have no format no letter and no brace follows. -/
def Spelled : List Piece → Prop
  | [] => True
  | .text str :: ps => 37 ∉ str ∧ Spelled ps
  | .escape :: ps => Spelled ps
  | .conversion letter none :: ps =>
      IsKnown [letter] ∧ (∀ c ∈ (sources ps).head?, ¬ isAlpha c ∧ c ≠ 123 ∧ c ≠ 125) ∧ Spelled ps
  | .conversion letter (some fmt) :: ps => IsKnown [letter] ∧ 125 ∉ fmt ∧ Spelled ps

/-- A conversion that is no piece: its name is not in the table, or its brace is not closed. -/
inductive Malformed : Text → Prop
  | unknown {name : Text} (hname : ∀ c ∈ name, isAlpha c) (hunknown : ¬ IsKnown name) :
      Malformed (37 :: name)
  | unknownFormat {name fmt : Text} (hname : ∀ c ∈ name, isAlpha c) (hunknown : ¬ IsKnown name)
      (hfmt : 125 ∉ fmt) : Malformed (37 :: name ++ 123 :: fmt ++ [125])
  | unclosed {letter : UInt8} {fmt : Text} (hknown : IsKnown [letter]) (hfmt : 125 ∉ fmt) :
      Malformed (37 :: letter :: 123 :: fmt)

/-- The pieces are accepted and written in order, and a malformed conversion behind them is
an error. -/
def Renders (ps : List Piece) : Prop :=
  (LogFormatter.new (sources ps)).error = false ∧
    (∀ level event, (LogFormatter.new (sources ps)).format level event =
      ps.flatMap (Piece.render level event)) ∧
    ∀ tail, Malformed tail → (LogFormatter.new (sources ps ++ tail)).error = true

/-! ### The table -/

theorem isNone_lookup_formatItems (fmt str : Text) :
    ((formatItems fmt).lookup str).isNone = true ↔ str ∉ (formatItems []).map Prod.fst := by
  have hkeys : (formatItems fmt).map Prod.fst = (formatItems []).map Prod.fst := rfl
  rw [Option.isNone_iff_eq_none, List.lookup_eq_none_iff, ← hkeys, List.mem_map, not_exists]
  simp only [bne_iff_ne, ne_eq, not_and]
  exact forall₂_congr fun p _ => ⟨fun h h' => h h'.symm, fun h h' => h h'.symm⟩

theorem isKnown_iff (str : Text) : IsKnown str ↔ str ∈ (formatItems []).map Prod.fst := by
  rw [← not_iff_not, ← isNone_lookup_formatItems [], IsKnown, Option.not_isSome_iff_eq_none,
    Option.isNone_iff_eq_none]

theorem isUnknown_conversion (str fmt : Text) :
    (PatternPart.conversion str fmt).isUnknown = true ↔ ¬ IsKnown str := by
  rw [isKnown_iff]
  exact isNone_lookup_formatItems fmt str

/-- The names of the table are single letters. -/
theorem IsKnown.letter {str : Text} (h : IsKnown str) : ∃ c, str = [c] ∧ isAlpha c = true := by
  have hletters : ∀ name ∈ (formatItems []).map Prod.fst, ∃ c, name = [c] ∧ isAlpha c = true := by
    simp only [formatItems, List.map_cons, List.map_nil, List.forall_mem_cons]
    exact ⟨⟨_, rfl, rfl⟩, ⟨_, rfl, rfl⟩, ⟨_, rfl, rfl⟩, ⟨_, rfl, rfl⟩, ⟨_, rfl, rfl⟩, ⟨_, rfl, rfl⟩,
      ⟨_, rfl, rfl⟩, ⟨_, rfl, rfl⟩, ⟨_, rfl, rfl⟩, ⟨_, rfl, rfl⟩, ⟨_, rfl, rfl⟩, ⟨_, rfl, rfl⟩,
      fun _ hname => absurd hname List.not_mem_nil⟩
  exact hletters str ((isKnown_iff str).mp h)

theorem IsKnown.isAlpha {c : UInt8} (h : IsKnown [c]) : Log.isAlpha c = true := by
  obtain ⟨d, hd, halpha⟩ := h.letter
  cases hd
  exact halpha

theorem IsKnown.item {str : Text} (h : IsKnown str) (fmt : Text) :
    ∃ item, (formatItems fmt).lookup str = some item := by
  rw [← Option.isSome_iff_exists, ← Option.not_isNone, Bool.not_eq_true',
    ← Bool.not_eq_true, isNone_lookup_formatItems, not_not, ← isKnown_iff]
  exact h

/-! ### What is written -/

section Written

variable (level : LogLevel) (event : LogEvent)

/-- The error flag of the formatter with these parts. -/
def failed (r : List PatternPart × Bool) : Bool := r.2 || r.1.any PatternPart.isUnknown

/-- What the formatter with these parts writes. -/
def written (r : List PatternPart × Bool) : Text :=
  r.1.flatMap fun part => part.item.format level event

theorem error_new (pattern : Text) :
    (LogFormatter.new pattern).error = failed (cut pattern []) := by
  rw [LogFormatter.new_eq_cut, failed]

theorem format_new (pattern : Text) :
    (LogFormatter.new pattern).format level event = written level event (cut pattern []) := by
  rw [LogFormatter.new_eq_cut, LogFormatter.format, written, List.flatMap_map]

@[simp] theorem failed_flush (nstr : Text) : failed (LogFormatter.flush nstr, false) = false := by
  rw [failed, LogFormatter.flush]
  split <;> rfl

@[simp] theorem written_flush (nstr : Text) (b : Bool) :
    written level event (LogFormatter.flush nstr, b) = nstr := by
  rw [written, LogFormatter.flush]
  split
  · next h => rw [h]; rfl
  · simp [PatternPart.item, FormatItem.format]

theorem failed_conversion (nstr str fmt : Text) (r : List PatternPart × Bool) :
    failed (LogFormatter.flush nstr ++ .conversion str fmt :: r.1, r.2) = false ↔
      IsKnown str ∧ failed r = false := by
  have hflush : (LogFormatter.flush nstr).any PatternPart.isUnknown = false := by
    rw [LogFormatter.flush]
    split <;> rfl
  rw [failed, failed, List.any_append, hflush, List.any_cons, Bool.false_or,
    Bool.or_eq_false_iff, Bool.or_eq_false_iff, Bool.or_eq_false_iff, ← Bool.not_eq_true
      (PatternPart.isUnknown _), isUnknown_conversion, not_not]
  exact and_left_comm

theorem written_conversion (nstr str fmt : Text) (r : List PatternPart × Bool) (b : Bool) :
    written level event (LogFormatter.flush nstr ++ .conversion str fmt :: r.1, b) =
      nstr ++ (PatternPart.conversion str fmt).item.format level event ++
        written level event r := by
  have hflush := written_flush level event nstr b
  rw [written] at hflush
  rw [written, written, List.flatMap_append, hflush, List.flatMap_cons, List.append_assoc]

end Written

/-! ### Conversions -/

section Conversions

variable {name fmt rest : Text} {c : UInt8}

theorem isWord_of_isAlpha (h : isAlpha c = true) : isWord c = true := by
  rw [isWord, h, Bool.true_or]

theorem ne_percent_of_isAlpha (h : isAlpha c = true) : c ≠ 37 := by
  rintro rfl
  cases h

/-- A name in front of an opening brace. -/
theorem conversionOf_brace (hname : ∀ c ∈ name, isAlpha c = true) (rest : Text) :
    conversionOf (name ++ 123 :: rest) =
      if 125 ∈ rest then
        some (name, rest.takeWhile (· ≠ 125), (rest.dropWhile (· ≠ 125)).tail)
      else none := by
  have hword : ∀ c ∈ name, isWord c = true := fun c hc => isWord_of_isAlpha (hname c hc)
  have hbrace : ¬ isWord 123 = true := by decide
  rw [conversionOf, List.dropWhile_append_of_pos hword, List.takeWhile_append_of_pos hword,
    List.dropWhile_cons_of_neg hbrace, List.takeWhile_cons_of_neg hbrace, List.append_nil]
  rfl

theorem conversionOf_closed (hname : ∀ c ∈ name, isAlpha c = true) (hfmt : 125 ∉ fmt)
    (rest : Text) : conversionOf (name ++ 123 :: fmt ++ 125 :: rest) = some (name, fmt, rest) := by
  have hopen : ∀ d ∈ fmt, decide (d ≠ 125) = true := by
    intro d hd
    exact decide_eq_true (ne_of_mem_of_not_mem hd hfmt)
  rw [List.append_assoc, List.cons_append, conversionOf_brace hname,
    if_pos (List.mem_append_right _ List.mem_cons_self), List.takeWhile_append_of_pos hopen,
    List.dropWhile_append_of_pos hopen]
  simp

/-- A name that neither a letter nor a brace follows. -/
theorem conversionOf_plain (hname : ∀ c ∈ name, isAlpha c = true) (rest : Text)
    (hrest : ∀ d ∈ rest.head?, ¬ isAlpha d ∧ d ≠ 123 ∧ d ≠ 125) :
    conversionOf (name ++ rest) = some (name, [], rest) := by
  have hword : ∀ c ∈ name, isWord c = true := fun c hc => isWord_of_isAlpha (hname c hc)
  rw [conversionOf, List.dropWhile_append_of_pos hword, List.takeWhile_append_of_pos hword]
  cases rest with
  | nil => rw [List.append_nil]; rfl
  | cons d rest =>
      obtain ⟨halpha, hopen, hclose⟩ := hrest d rfl
      have hstop : ¬ isWord d = true := by
        rw [isWord, Bool.or_eq_true, beq_iff_eq, not_or]
        exact ⟨halpha, hclose⟩
      rw [List.dropWhile_cons_of_neg hstop, List.takeWhile_cons_of_neg hstop, List.append_nil]
      simp only [if_neg hopen]

/-- The name of a conversion is what the text begins with. -/
theorem conversionOf_prefix {text str : Text} (h : conversionOf text = some (str, fmt, rest)) :
    str <+: text := by
  rw [conversionOf] at h
  split at h
  · cases h
    exact List.prefix_rfl
  · split at h
    · split at h
      · cases h
        exact List.takeWhile_prefix _
      · cases h
    · cases h
      exact List.takeWhile_prefix _

theorem head_name_ne (hname : ∀ c ∈ name, isAlpha c = true) (hrest : rest.head? ≠ some 37) :
    (name ++ rest).head? ≠ some 37 := by
  cases name with
  | nil => exact hrest
  | cons c name =>
      intro heq
      exact ne_percent_of_isAlpha (hname c List.mem_cons_self) (Option.some.inj heq)

/-- A malformed conversion at the end of a pattern is reported. -/
theorem failed_of_malformed {tail : Text} (h : Malformed tail) (nstr : Text) :
    failed (cut tail nstr) = true := by
  rw [← Bool.not_eq_false]
  cases h with
  | @unknown name hname hunknown =>
      have hconversion := conversionOf_plain hname [] nofun
      have hhead : (name ++ []).head? ≠ some 37 := head_name_ne hname nofun
      rw [List.append_nil] at hconversion hhead
      rw [cut_conversion hhead hconversion, failed_conversion]
      exact fun hand => hunknown hand.1
  | @unknownFormat name fmt hname hunknown hfmt =>
      have hconversion := conversionOf_closed hname hfmt []
      have hhead : (name ++ (123 :: fmt ++ [125])).head? ≠ some 37 := head_name_ne hname nofun
      rw [← List.append_assoc] at hhead
      rw [List.cons_append, List.cons_append, cut_conversion hhead hconversion, failed_conversion]
      exact fun hand => hunknown hand.1
  | @unclosed letter fmt hknown hfmt =>
      have hname : ∀ c ∈ [letter], isAlpha c = true :=
        List.forall_mem_singleton.mpr hknown.isAlpha
      have hconversion : conversionOf ([letter] ++ 123 :: fmt) = none := by
        rw [conversionOf_brace hname, if_neg hfmt]
      have hhead : ([letter] ++ 123 :: fmt).head? ≠ some 37 := head_name_ne hname nofun
      have hcut := cut_open hhead hconversion nstr
      rw [List.singleton_append] at hcut
      rw [hcut]
      exact nofun

end Conversions

/-! ### Pieces without an escape -/

section Pieces

variable {ps : List Piece} {tail : Text}

theorem cut_literal {str : Text} (h : 37 ∉ str) (text nstr : Text) :
    cut (str ++ text) nstr = cut text (nstr ++ str) := by
  induction str generalizing nstr with
  | nil => rw [List.nil_append, List.append_nil]
  | cons c str ih =>
      rw [List.mem_cons, not_or] at h
      obtain ⟨hc, hstr⟩ := h
      rw [List.cons_append, cut_text (Ne.symm hc), ih hstr, List.append_assoc,
        List.singleton_append]

/-- A conversion of the table is written as its piece. -/
theorem render_conversion {letter : UInt8} (h : IsKnown [letter]) (fmt : Option Text)
    (level : LogLevel) (event : LogEvent) :
    (Piece.conversion letter fmt).render level event =
      (PatternPart.conversion [letter] (fmt.getD [])).item.format level event := by
  obtain ⟨item, hitem⟩ := h.item (fmt.getD [])
  rw [Piece.render, PatternPart.item, hitem]
  rfl

theorem head_sources_append (hps : ∀ c ∈ (sources ps).head?, ¬ isAlpha c ∧ c ≠ 123 ∧ c ≠ 125)
    (htail : ∀ c ∈ tail.head?, c = 37) :
    ∀ c ∈ (sources ps ++ tail).head?, ¬ isAlpha c ∧ c ≠ 123 ∧ c ≠ 125 := by
  cases hsource : sources ps with
  | nil =>
      intro c hc
      rw [htail c hc]
      decide
  | cons d rest =>
      rw [hsource] at hps
      exact hps

/-- The conversion that begins the pieces is found. -/
theorem cut_piece {letter : UInt8} {fmt : Option Text} (tail : Text)
    (h : Spelled (.conversion letter fmt :: ps)) (htail : ∀ c ∈ tail.head?, c = 37)
    (nstr : Text) :
    IsKnown [letter] ∧ Spelled ps ∧
      cut (sources (.conversion letter fmt :: ps) ++ tail) nstr =
        (LogFormatter.flush nstr ++ .conversion [letter] (fmt.getD []) ::
          (cut (sources ps ++ tail) []).1, (cut (sources ps ++ tail) []).2) := by
  cases fmt with
  | none =>
      obtain ⟨hknown, hnext, hps⟩ := h
      have hname : ∀ c ∈ [letter], isAlpha c = true :=
        List.forall_mem_singleton.mpr hknown.isAlpha
      have hhead : ([letter] ++ (sources ps ++ tail)).head? ≠ some 37 := by
        intro heq
        exact ne_percent_of_isAlpha hknown.isAlpha (Option.some.inj heq)
      have hconversion :=
        conversionOf_plain hname (sources ps ++ tail) (head_sources_append hnext htail)
      exact ⟨hknown, hps, cut_conversion hhead hconversion nstr⟩
  | some fmt =>
      obtain ⟨hknown, hfmt, hps⟩ := h
      have hname : ∀ c ∈ [letter], isAlpha c = true :=
        List.forall_mem_singleton.mpr hknown.isAlpha
      have hconversion := conversionOf_closed hname hfmt (sources ps ++ tail)
      have hhead : ([letter] ++ 123 :: fmt ++ 125 :: (sources ps ++ tail)).head? ≠ some 37 := by
        intro heq
        exact ne_percent_of_isAlpha hknown.isAlpha (Option.some.inj heq)
      have hsource : sources (.conversion letter (some fmt) :: ps) ++ tail =
          37 :: ([letter] ++ 123 :: fmt ++ 125 :: (sources ps ++ tail)) := by
        simp [sources, Piece.source]
      rw [hsource]
      exact ⟨hknown, hps, cut_conversion hhead hconversion nstr⟩

/-- The pieces in front of `tail` leave some collected text to it; what is written before
and that text are the collected text and what the pieces stand for. -/
theorem cut_pieces (tail : Text) (h : Spelled ps) (hps : Piece.escape ∉ ps)
    (htail : ∀ c ∈ tail.head?, c = 37) (nstr : Text) :
    ∃ (front : LogLevel → LogEvent → Text) (nstr' : Text),
      failed (cut (sources ps ++ tail) nstr) = failed (cut tail nstr') ∧
      ∀ level event,
        written level event (cut (sources ps ++ tail) nstr) =
            front level event ++ written level event (cut tail nstr') ∧
          front level event ++ nstr' = nstr ++ ps.flatMap (Piece.render level event) := by
  induction ps generalizing nstr with
  | nil =>
      refine ⟨fun _ _ => [], nstr, rfl, fun level event => ⟨rfl, ?_⟩⟩
      rw [List.nil_append, List.flatMap_nil, List.append_nil]
  | cons piece ps ih =>
      rw [List.mem_cons, not_or] at hps
      obtain ⟨hpiece, hps⟩ := hps
      cases piece with
      | text str =>
          obtain ⟨hstr, hspelled⟩ := h
          obtain ⟨front, nstr', hfailed, hwritten⟩ := ih hspelled hps (nstr ++ str)
          have hcut : cut (sources (.text str :: ps) ++ tail) nstr =
              cut (sources ps ++ tail) (nstr ++ str) := by
            rw [← cut_literal hstr, ← List.append_assoc]
            rfl
          refine ⟨front, nstr', by rw [hcut, hfailed], fun level event => ?_⟩
          obtain ⟨hout, hfront⟩ := hwritten level event
          rw [hcut, hout, hfront, List.append_assoc]
          exact ⟨rfl, rfl⟩
      | escape => exact absurd rfl hpiece
      | conversion letter fmt =>
          obtain ⟨hknown, hspelled, hcut⟩ := cut_piece tail h htail nstr
          obtain ⟨front, nstr', hfailed, hwritten⟩ := ih hspelled hps []
          refine ⟨fun level event => nstr ++
            (Piece.conversion letter fmt).render level event ++ front level event, nstr', ?_, ?_⟩
          · rw [hcut, ← hfailed, Bool.eq_iff_iff, ← not_iff_not, Bool.not_eq_true, Bool.not_eq_true,
              failed_conversion, and_iff_right hknown]
          · intro level event
            obtain ⟨hout, hfront⟩ := hwritten level event
            rw [List.nil_append] at hfront
            have hrender := render_conversion hknown fmt level event
            rw [hcut, written_conversion, hout, ← hrender]
            constructor
            · simp only [List.append_assoc]
            · rw [List.append_assoc, hfront, List.append_assoc, List.flatMap_cons]

/-- Pieces without an escape are rendered. -/
theorem renders_of_no_escape (h : Spelled ps) (hps : Piece.escape ∉ ps) : Renders ps := by
  refine ⟨?_, ?_, ?_⟩
  · obtain ⟨front, nstr', hfailed, -⟩ := cut_pieces [] h hps nofun []
    rw [List.append_nil] at hfailed
    rw [error_new, hfailed, cut_nil, failed_flush]
  · intro level event
    obtain ⟨front, nstr', -, hwritten⟩ := cut_pieces [] h hps nofun []
    obtain ⟨hout, hfront⟩ := hwritten level event
    rw [List.append_nil] at hout
    rw [format_new, hout, cut_nil, written_flush, hfront, List.nil_append]
  · intro tail hmalformed
    have hhead : ∀ c ∈ tail.head?, c = 37 := by
      cases hmalformed <;> rintro c ⟨⟩ <;> rfl
    obtain ⟨front, nstr', hfailed, -⟩ := cut_pieces tail h hps hhead []
    rw [error_new, hfailed, failed_of_malformed hmalformed]

end Pieces

/-! ### Pieces with an escape -/

section Escapes

/-- An event whose conversions begin with neither a `%` nor their own letter. -/
def probe : LogEvent where
  content := ascii "!"
  elapse := 0
  loggerName := ascii "!"
  threadId := 0
  fiberId := 0
  threadName := ascii "!"
  file := ascii "!"
  line := 0
  strftime := fun _ => ascii "!"

theorem probe_item (fmt : Text) :
    ∀ p ∈ formatItems fmt, ∃ c rest, p.2.format .debug probe = c :: rest ∧ c ≠ 37 ∧ p.1 ≠ [c] := by
  simp only [formatItems, List.forall_mem_cons]
  refine ⟨⟨_, _, rfl, by decide⟩, ⟨_, _, rfl, by decide⟩, ⟨_, _, rfl, by decide⟩,
    ⟨_, _, rfl, by decide⟩, ⟨_, _, rfl, by decide⟩, ⟨_, _, rfl, by decide⟩, ⟨_, _, rfl, by decide⟩,
    ⟨_, _, rfl, by decide⟩, ⟨_, _, rfl, by decide⟩, ⟨_, _, rfl, by decide⟩, ⟨_, _, rfl, by decide⟩,
    ⟨_, _, rfl, by decide⟩, fun _ hp => absurd hp List.not_mem_nil⟩

theorem probe_conversion {str : Text} (h : IsKnown str) (fmt : Text) :
    ∃ c rest, (PatternPart.conversion str fmt).item.format .debug probe = c :: rest ∧ c ≠ 37 ∧
      str ≠ [c] := by
  obtain ⟨item, hitem⟩ := h.item fmt
  obtain ⟨front, back, hsplit, -⟩ := List.lookup_eq_some_iff.mp hitem
  have hmem : (str, item) ∈ formatItems fmt := by
    rw [hsplit]
    exact List.mem_append_right _ List.mem_cons_self
  have hprobe := probe_item fmt _ hmem
  rwa [PatternPart.item, hitem]

/-- Where nothing is reported, what is written begins with the collected text. -/
theorem prefix_written (level : LogLevel) (event : LogEvent) (text nstr : Text)
    (h : failed (cut text nstr) = false) : nstr <+: written level event (cut text nstr) := by
  induction text, nstr using cut.induct with
  | case1 nstr =>
      rw [cut_nil, written_flush]
  | case2 nstr c text hc ih =>
      rw [cut_text hc] at h ⊢
      exact (List.prefix_append _ _).trans (ih h)
  | case3 nstr c text hc hescape ih =>
      obtain rfl := not_not.mp hc
      obtain ⟨text, rfl⟩ := List.head?_eq_some_iff.mp hescape
      rw [cut_escape] at h ⊢
      exact (List.prefix_append _ _).trans (ih h)
  | case4 nstr c text hc hhead hopen ih =>
      obtain rfl := not_not.mp hc
      rw [cut_open hhead hopen] at h
      cases h
  | case5 nstr c text hc hhead str fmt rest hconversion ih =>
      obtain rfl := not_not.mp hc
      rw [cut_conversion hhead hconversion, written_conversion, List.append_assoc]
      exact List.prefix_append _ _

theorem Spelled.append {ps qs : List Piece} (h : Spelled (ps ++ .escape :: qs)) :
    Spelled ps ∧ Spelled qs := by
  induction ps with
  | nil => exact ⟨trivial, h⟩
  | cons piece ps ih =>
      cases piece with
      | text str => exact ⟨⟨h.1, (ih h.2).1⟩, (ih h.2).2⟩
      | escape => exact ih h
      | conversion letter fmt =>
          cases fmt with
          | none =>
              obtain ⟨hknown, hnext, hrest⟩ := h
              refine ⟨⟨hknown, ?_, (ih hrest).1⟩, (ih hrest).2⟩
              intro c hc
              apply hnext c
              have hsplit : sources (ps ++ .escape :: qs) =
                  sources ps ++ sources (.escape :: qs) := List.flatMap_append
              change c ∈ (sources (ps ++ .escape :: qs)).head?
              rw [hsplit]
              exact List.mem_head?_append_of_mem_head? hc
          | some fmt => exact ⟨⟨h.1, h.2.1, (ih h.2.2).1⟩, (ih h.2.2).2⟩

theorem append_percent (front : Text) (n : Nat) :
    front ++ List.replicate n 37 ++ [37] = front ++ List.replicate (n + 1) 37 := by
  rw [List.append_assoc, ← List.replicate_succ']

/-- Behind an escape the formatter starts over at the second `%`. Either it reports that, or it
has written more `%` than it should have, or it writes a conversion in place of a letter. -/
theorem written_ne_of_percent {ps : List Piece} (h : Spelled ps) (front : Text) (extra : Nat)
    (hok : failed (cut (37 :: sources ps) (front ++ List.replicate extra 37)) = false) :
    written .debug probe (cut (37 :: sources ps) (front ++ List.replicate extra 37)) ≠
      front ++ ps.flatMap (Piece.render .debug probe) := by
  induction ps generalizing front extra with
  | nil =>
      have hcut := cut_conversion (nofun : ([] : Text).head? ≠ some 37) rfl
        (front ++ List.replicate extra 37)
      change failed (cut [37] _) = false at hok
      rw [hcut, failed_conversion] at hok
      obtain ⟨c, hc, -⟩ := hok.1.letter
      cases hc
  | cons piece ps ih =>
      cases piece with
      | text str =>
          cases str with
          | nil => exact ih h.2 front extra hok
          | cons c str =>
              have hc : c ≠ 37 := fun heq => h.1 (heq ▸ List.mem_cons_self)
              let text := c :: (str ++ sources ps)
              have hsource : sources (.text (c :: str) :: ps) = text := rfl
              have hhead : text.head? ≠ some 37 := fun heq => hc (Option.some.inj heq)
              rw [hsource] at hok ⊢
              cases hconversion : conversionOf text with
              | none =>
                  rw [cut_open hhead hconversion] at hok
                  cases hok
              | some p =>
                  obtain ⟨name, fmt, rest⟩ := p
                  rw [cut_conversion hhead hconversion, failed_conversion] at hok
                  obtain ⟨d, tail, hformat, -, hne⟩ := probe_conversion hok.1 fmt
                  rw [cut_conversion hhead hconversion, written_conversion, hformat]
                  intro heq
                  simp only [List.append_assoc] at heq
                  have hrest := List.append_cancel_left heq
                  cases extra with
                  | succ extra => exact hc (List.cons.inj hrest).1.symm
                  | zero =>
                      -- the letter of the conversion is the first byte of the literal text
                      obtain ⟨letter, rfl, -⟩ := hok.1.letter
                      obtain ⟨more, hmore⟩ := conversionOf_prefix hconversion
                      have hletter : letter = c := (List.cons.inj hmore).1
                      have hd : d = c := (List.cons.inj hrest).1
                      exact hne (by rw [hletter, hd])
      | escape =>
          have hcut : cut (37 :: sources (.escape :: ps)) (front ++ List.replicate extra 37) =
              cut (37 :: sources ps) (front ++ [37] ++ List.replicate (extra + 1) 37) := by
            have hsource : sources (.escape :: ps) = 37 :: 37 :: sources ps := rfl
            rw [hsource, cut_escape, cut_escape, append_percent, append_percent,
              List.replicate_succ, List.append_cons]
          have hrender : front ++ (Piece.escape :: ps).flatMap (Piece.render .debug probe) =
              front ++ [37] ++ ps.flatMap (Piece.render .debug probe) := List.append_cons ..
          rw [hcut] at hok ⊢
          rw [hrender]
          exact ih h (front ++ [37]) (extra + 1) hok
      | conversion letter fmt =>
          -- one `%` more than there should be, in front of the conversion
          obtain ⟨hknown, -, -⟩ := cut_piece [] h nofun []
          obtain ⟨text, htext⟩ : ∃ text, sources (.conversion letter fmt :: ps) = 37 :: text := by
            cases fmt with
            | none => exact ⟨_, rfl⟩
            | some fmt => exact ⟨_, rfl⟩
          obtain ⟨c, tail, hformat, hc, -⟩ := probe_conversion hknown (fmt.getD [])
          rw [htext, cut_escape, append_percent] at hok ⊢
          obtain ⟨more, hmore⟩ := prefix_written .debug probe _ _ hok
          rw [← hmore, List.flatMap_cons, render_conversion hknown, hformat, List.append_assoc]
          intro heq
          exact hc (List.cons.inj (List.append_cancel_left heq)).1.symm

end Escapes

end Sylar.Log
