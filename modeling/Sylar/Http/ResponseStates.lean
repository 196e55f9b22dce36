import Sylar.Lib.RagelClasses
import Sylar.Http.Fields

/-!
# Runs of the response machine over the parts of a dumped response

The machine of `httpclient_parser.rl` knows three field names, which it looks for together with
any other name. The state inside a name is that of the part of such a name that the name has in
common with it so far, or one state for all other names.
-/

namespace Sylar.Http.ResponseStates

open Sylar.Lib Sylar.Lib.Ragel

section Machine

/-! The states, each after a shortest text that leads to it. -/

def statusStart : State ResponseAction := stateThrough responseStart (ascii "HTTP/1.1 ")
def statusState : State ResponseAction := stateThrough statusStart [50]
def reasonStart : State ResponseAction := stateThrough statusState [32]
def reasonState : State ResponseAction := stateThrough reasonStart [79]
def reasonEnd : State ResponseAction := stateThrough reasonState [13]
def headerState : State ResponseAction := stateThrough reasonEnd [10]
def otherName : State ResponseAction := stateThrough headerState [48]
def colonState : State ResponseAction := stateThrough otherName [58]
def blankState : State ResponseAction := stateThrough colonState [32]
def valueState : State ResponseAction := stateThrough blankState [98]
def fieldEnd : State ResponseAction := stateThrough valueState [13]
def headEnd : State ResponseAction := stateThrough headerState [13]
def lengthState : State ResponseAction := stateThrough headerState (ascii "Content-length: ")
def digitState : State ResponseAction := stateThrough lengthState [49]
def lengthEnd : State ResponseAction := stateThrough digitState [13]

/-- After a field that closes the connection one more action is pending. -/
def closedState : State ResponseAction :=
  stateThrough headerState (ascii "Connection: close\r\n")

/-- The bytes of a reason that do not end the line. -/
def reasonBytes : ByteSet := ByteSet.any.diff (.ofChars "\n\r")

def VersionEdges : Prop :=
  walk responseStart 0 (versionText 0x11 ++ ascii " ") =
      some ([(0, .mark), (8, .httpVersion)], statusStart) ∧
    walk responseStart 0 (versionText 0x10 ++ ascii " ") =
      some ([(0, .mark), (8, .httpVersion)], statusStart)
  deriving Decidable

def StatusEdges : Prop :=
  exits statusStart .digit 50 [.mark] ∧
    leads statusState .digit 50 [] statusState ∧
    exits statusState (.byte 32) 32 [.statusCode] ∧
    exits reasonStart reasonBytes 79 [.mark] ∧
    leads reasonState reasonBytes 79 [] reasonState ∧
    exits reasonState (.byte 13) 13 [.reasonPhrase] ∧
    exits reasonEnd (.byte 10) 10 []
  deriving Decidable

/-- The bytes of a value other than those that may stand in front of it. -/
def solidBytes : ByteSet := valueBytes.diff .space

def ValueEdges : Prop :=
  exits colonState (.byte 32) 32 [.startValue] ∧
    exits blankState solidBytes 98 [.startValue] ∧
    leads blankState (.byte 13) 13 [.startValue, .writeValue] fieldEnd ∧
    leads valueState valueBytes 98 [] valueState ∧
    exits valueState (.byte 13) 13 [.writeValue] ∧
    leads fieldEnd (.byte 10) 10 [] headerState
  deriving Decidable

/-- The field names that the machine knows, in lower case. -/
def specialNames : List Text :=
  [ascii "content-length", ascii "connection", ascii "transfer-encoding"]

/-- The bytes that go on with a part of a name that the machine knows. -/
def nexts (label : Text) : List UInt8 :=
  specialNames.filterMap fun s => if label.isPrefixOf s then s[label.length]? else none

/-- The bytes that are the given one in lower case. -/
def caseBytes (c : UInt8) : ByteSet :=
  (ByteSet.byte c.toNat).union (.byte (if 97 ≤ c ∧ c ≤ 122 then c - 32 else c).toNat)

theorem mem_caseBytes {c : UInt8} (hc : toLower c = c) {b : UInt8} :
    (caseBytes c).mem b ↔ toLower b = c := by
  have hupper : ∀ c : UInt8, toLower c = c →
      toLower (if 97 ≤ c ∧ c ≤ 122 then c - 32 else c) = c := forall_byte (by decide +kernel)
  have hself : ∀ b : UInt8, (caseBytes (toLower b)).mem b := forall_byte (by decide +kernel)
  constructor
  · intro hb
    obtain hb | hb := ByteSet.mem_union.mp hb
    · rw [UInt8.toNat_inj.mp (ByteSet.mem_byte.mp hb), hc]
    · rw [UInt8.toNat_inj.mp (ByteSet.mem_byte.mp hb), hupper c hc]
  · intro hb
    rw [← hb]
    exact hself b

theorem toLower_of_mem_specialNames :
    ∀ s ∈ specialNames, ∀ c ∈ s, toLower c = c := by decide +kernel

/-- The bytes of a name that do not go on with the part. -/
def otherBytes (label : Text) : ByteSet :=
  (nexts label).foldl (fun m c => m.diff (caseBytes c)) nameBytes

/-- The steps from the state after a part of a known name. -/
def labelEdges (label : Text) : Bool :=
  let s := stateThrough headerState label
  leads s (otherBytes label) 48 [] otherName &&
    (nexts label).all (fun c => exits s (caseBytes c) c []) &&
      (specialNames.contains label || leads s (.byte 58) 58 [.writeField] colonState)

/-- The parts of the known names. -/
def LabelEdges : Prop :=
  specialNames.all fun s => (List.range s.length).all fun n => labelEdges (s.take (n + 1))
  deriving Decidable

/-- The state in front of a header line, by whether the connection was just closed. -/
def lineState (closed : Bool) : State ResponseAction := if closed then closedState else headerState

/-- The actions on the first byte of a name. The first alternative of the grammar is embedded
before the one that closes the connection. -/
def firstActs (closed : Bool) (b : UInt8) : List ResponseAction :=
  if !closed then [.startField]
  else if toLower b = 116 then [.startField, .writeConnectionClose]
  else [.writeConnectionClose, .startField]

/-- The actions on the blank line. -/
def endActs (closed : Bool) : List ResponseAction := if closed then [.writeConnectionClose] else []

/-- The first byte of a header line, and the blank line. -/
def LineEdges : Prop :=
  exits headerState (otherBytes []) 48 [.startField] ∧
    (nexts []).all (fun c => exits headerState (caseBytes c) c [.startField]) ∧
    exits headerState (.byte 13) 13 [] ∧
    leads closedState (otherBytes []) 48 [.writeConnectionClose, .startField] otherName ∧
    (nexts []).all (fun c => leads closedState (caseBytes c) c (firstActs true c)
      (stateThrough headerState [c])) ∧
    leads closedState (.byte 13) 13 [.writeConnectionClose] headEnd ∧
    exits headEnd (.byte 10) 10 [.done] ∧
    final (stateThrough headEnd [10]) ∧
    leads otherName nameBytes 48 [] otherName ∧
    exits otherName (.byte 58) 58 [.writeField] ∧
    116 ∈ nexts []
  deriving Decidable

/-- The actions at the end of a value, which may be a length. -/
def valueActs (measured : Bool) : List ResponseAction :=
  if measured then [.writeContentLen, .writeValue] else [.writeValue]

/-- The actions on a header line at `p`. -/
def fieldEvents (closed measured : Bool) (p : Nat) (i : Text × Text) :
    List (Nat × ResponseAction) :=
  let colon := p + i.1.length
  (firstActs closed (i.1.headD 0)).map (p, ·) ++
    ([(colon, .writeField), (colon + 1, .startValue), (colon + 2, .startValue)] ++
      (valueActs measured).map (colon + 2 + i.2.length, ·))

def ConnectionEdges : Prop :=
  walk headerState 0 (fieldText (connectionField true)) =
      some (fieldEvents false false 0 (connectionField true), closedState) ∧
    walk headerState 0 (fieldText (connectionField false)) =
      some (fieldEvents false false 0 (connectionField false), headerState)
  deriving Decidable

def LengthEdges : Prop :=
  walk headerState 0 (ascii "Content-length: ") =
      some ([(0, .startField), (14, .writeField), (15, .startValue)], lengthState) ∧
    walk closedState 0 (ascii "Content-length: ") =
      some ([(0, .writeConnectionClose), (0, .startField), (14, .writeField), (15, .startValue)],
        lengthState) ∧
    exits lengthState .digit 49 [.startValue] ∧
    leads digitState .digit 49 [] digitState ∧
    exits digitState (.byte 13) 13 [.writeContentLen, .writeValue] ∧
    leads lengthEnd (.byte 10) 10 [] headerState
  deriving Decidable

/-- All steps at once, so that the machine is computed once. -/
theorem machine_edges :
    VersionEdges ∧ StatusEdges ∧ ValueEdges ∧ LabelEdges ∧ LineEdges ∧ ConnectionEdges ∧
      LengthEdges := by
  decide +kernel

theorem version_edges : VersionEdges := machine_edges.1
theorem status_edges : StatusEdges := machine_edges.2.1
theorem value_edges : ValueEdges := machine_edges.2.2.1
theorem label_edges : LabelEdges := machine_edges.2.2.2.1
theorem line_edges : LineEdges := machine_edges.2.2.2.2.1
theorem connection_edges : ConnectionEdges := machine_edges.2.2.2.2.2.1
theorem length_edges : LengthEdges := machine_edges.2.2.2.2.2.2

end Machine

section Names

/-- The state inside a name, of which this is the lower case. -/
def labelState (label : Text) : State ResponseAction :=
  if specialNames.any label.isPrefixOf then stateThrough headerState label else otherName

/-- A byte goes on with a part of a known name if and only if the longer text is one. -/
theorem mem_nexts {label : Text} {c : UInt8} :
    c ∈ nexts label ↔ specialNames.any (label ++ [c]).isPrefixOf = true := by
  simp only [nexts, List.mem_filterMap, List.any_eq_true, List.isPrefixOf_iff_prefix]
  constructor
  · rintro ⟨s, hs, hc⟩
    split at hc
    · next hlabel =>
        obtain ⟨rest, rfl⟩ := hlabel
        refine ⟨_, hs, ?_⟩
        rw [List.getElem?_append_right (Nat.le_refl _), Nat.sub_self] at hc
        cases rest with
        | nil => cases hc
        | cons d rest =>
            cases hc
            exact ⟨rest, List.append_assoc _ _ _⟩
    · cases hc
  · rintro ⟨s, hs, rest, rfl⟩
    refine ⟨_, hs, ?_⟩
    rw [if_pos ⟨[c] ++ rest, (List.append_assoc _ _ _).symm⟩, List.append_assoc,
      List.getElem?_append_right (Nat.le_refl _), Nat.sub_self]
    rfl

theorem toLower_of_mem_nexts {label : Text} {c : UInt8} (hc : c ∈ nexts label) :
    toLower c = c := by
  rw [mem_nexts, List.any_eq_true] at hc
  obtain ⟨s, hs, hpart⟩ := hc
  rw [List.isPrefixOf_iff_prefix] at hpart
  exact toLower_of_mem_specialNames s hs c (hpart.subset (by simp))

theorem mem_otherBytes {label : Text} {b : UInt8} (hb : nameBytes.mem b)
    (hnot : toLower b ∉ nexts label) : (otherBytes label).mem b := by
  have hfold : ∀ (cs : List UInt8) (m : ByteSet), m.mem b →
      (∀ c ∈ cs, (caseBytes c).mem b = false) →
        (cs.foldl (fun m c => m.diff (caseBytes c)) m).mem b := by
    intro cs
    induction cs with
    | nil => exact fun m hm _ => hm
    | cons c cs ih =>
        intro m hm h
        exact ih _ (ByteSet.mem_diff.mpr ⟨hm, h c List.mem_cons_self⟩)
          fun d hd => h d (List.mem_cons_of_mem _ hd)
  apply hfold _ _ hb
  intro c hc
  rw [← Bool.not_eq_true, mem_caseBytes (toLower_of_mem_nexts hc)]
  rintro rfl
  exact hnot hc

theorem stateThrough_concat (s : State ResponseAction) (w : Text) (c : UInt8) :
    stateThrough s (w ++ [c]) = stateThrough (stateThrough s w) [c] := by
  rw [stateThrough, List.foldl_append]
  rfl

/-- A part of a known name stands in the table. -/
theorem labelEdges_of_part {label : Text} (hne : label ≠ [])
    (h : specialNames.any label.isPrefixOf = true) : labelEdges label = true := by
  obtain ⟨s, hs, hpart⟩ := List.any_eq_true.mp h
  obtain ⟨rest, rfl⟩ := List.isPrefixOf_iff_prefix.mp hpart
  have hpos : 0 < label.length := List.length_pos_iff.mpr hne
  have hall := List.all_eq_true.mp (List.all_eq_true.mp label_edges _ hs) (label.length - 1)
    (List.mem_range.mpr (by rw [List.length_append]; omega))
  rwa [Nat.sub_add_cancel hpos, List.take_left] at hall

/-- One byte inside a name. -/
theorem step_labelState {w : Text} (hw : w ≠ []) {b : UInt8} (hb : nameBytes.mem b) :
    step (labelState (lower w)) b = some ([], labelState (lower (w ++ [b]))) := by
  have hlower : lower (w ++ [b]) = lower w ++ [toLower b] := List.map_append
  have hne : lower w ≠ [] := by simpa [lower] using hw
  rw [hlower]
  by_cases hpart : specialNames.any (lower w).isPrefixOf = true
  · have hedges := labelEdges_of_part hne hpart
    simp only [labelEdges, Bool.and_eq_true, List.all_eq_true] at hedges
    obtain ⟨⟨hother, hnexts⟩, -⟩ := hedges
    rw [labelState, if_pos hpart]
    by_cases hnext : toLower b ∈ nexts (lower w)
    · have hlonger := mem_nexts.mp hnext
      have hmem := (mem_caseBytes (toLower_of_mem_nexts hnext)).mpr (rfl : toLower b = _)
      rw [labelState, if_pos hlonger, stateThrough_concat]
      exact step_of_exits (hnexts _ hnext) hmem
    · have hlonger : ¬ specialNames.any (lower w ++ [toLower b]).isPrefixOf = true :=
        fun h => hnext (mem_nexts.mpr h)
      rw [labelState, if_neg hlonger]
      exact step_of_leads hother (mem_otherBytes hb hnext)
  · have hlonger : ¬ specialNames.any (lower w ++ [toLower b]).isPrefixOf = true := by
      intro h
      apply hpart
      obtain ⟨s, hs, hs'⟩ := List.any_eq_true.mp h
      rw [List.isPrefixOf_iff_prefix] at hs'
      refine List.any_eq_true.mpr ⟨s, hs, ?_⟩
      exact List.isPrefixOf_iff_prefix.mpr ((List.prefix_append _ _).trans hs')
    obtain ⟨-, -, -, -, -, -, -, -, hloop, -⟩ := line_edges
    rw [labelState, labelState, if_neg hpart, if_neg hlonger]
    exact step_of_leads hloop hb

/-- The colon behind a name that the machine does not know. -/
theorem step_labelState_colon {w : Text} (hw : w ≠ []) (hother : lower w ∉ specialNames) :
    step (labelState (lower w)) 58 = some ([.writeField], colonState) := by
  have hne : lower w ≠ [] := by simpa [lower] using hw
  rw [labelState]
  split
  · next hpart =>
      have hedges := labelEdges_of_part hne hpart
      simp only [labelEdges, Bool.and_eq_true, Bool.or_eq_true] at hedges
      obtain ⟨-, hknown | hcolon⟩ := hedges
      · exact absurd (List.contains_iff_mem.mp hknown) hother
      · exact step_of_leads hcolon rfl
  · obtain ⟨-, -, -, -, -, -, -, -, -, hcolon, -⟩ := line_edges
    exact step_of_exits hcolon rfl

/-- The first byte of a name. -/
theorem step_lineState (closed : Bool) {b : UInt8} (hb : nameBytes.mem b) :
    step (lineState closed) b = some (firstActs closed b, labelState (lower [b])) := by
  obtain ⟨hother, hnexts, -, hother', hnexts', -, -, -, -, -, htransfer⟩ := line_edges
  have hlower : lower [b] = [] ++ [toLower b] := rfl
  rw [List.all_eq_true] at hnexts hnexts'
  by_cases hnext : toLower b ∈ nexts []
  · have hmem := (mem_caseBytes (toLower_of_mem_nexts hnext)).mpr (rfl : toLower b = _)
    have hacts : firstActs true (toLower b) = firstActs true b := by
      rw [firstActs, firstActs, toLower_of_mem_nexts hnext]
    rw [hlower, labelState, if_pos (mem_nexts.mp hnext)]
    cases closed with
    | false => exact step_of_exits (hnexts _ hnext) hmem
    | true =>
        rw [← hacts]
        exact step_of_leads (hnexts' _ hnext) hmem
  · have hmem := mem_otherBytes hb hnext
    have hacts : firstActs true b = [.writeConnectionClose, .startField] := by
      have hletter : toLower b ≠ 116 := by
        intro h
        rw [h] at hnext
        exact hnext htransfer
      rw [firstActs, if_neg (by decide), if_neg hletter]
    rw [hlower, labelState, if_neg fun h => hnext (mem_nexts.mpr h)]
    cases closed with
    | false => exact step_of_exits hother hmem
    | true =>
        rw [hacts]
        exact step_of_leads hother' hmem

end Names

section Runs

variable {p : Nat}

theorem firstActs_goes (closed : Bool) (b : UInt8) :
    untilStop HttpResponseParser.stop (firstActs closed b) = (firstActs closed b, false) := by
  cases closed with
  | false => rfl
  | true =>
      by_cases hb : toLower b = 116
      · rw [firstActs, if_neg (by decide), if_pos hb]
        rfl
      · rw [firstActs, if_neg (by decide), if_neg hb]
        rfl

/-- The rest of a name. -/
theorem runs_label {w t : Text} (hw : w ≠ []) (ht : ∀ b ∈ t, nameBytes.mem b) :
    Runs HttpResponseParser.stop (labelState (lower w)) p t [] (labelState (lower (w ++ t))) := by
  induction t generalizing w p with
  | nil =>
      rw [List.append_nil]
      exact .nil
  | cons b t ih =>
      have hrest := ih (w := w ++ [b]) (p := p + 1) (by simp)
        fun c hc => ht c (List.mem_cons_of_mem _ hc)
      rw [List.append_assoc] at hrest
      exact .cons_silent (step_labelState hw (ht b List.mem_cons_self)) hrest

theorem runs_name (closed : Bool) {t : Text} (hne : t ≠ []) (ht : ∀ b ∈ t, nameBytes.mem b) :
    Runs HttpResponseParser.stop (lineState closed) p t ((firstActs closed (t.headD 0)).map (p, ·))
      (labelState (lower t)) := by
  obtain ⟨b, t, rfl⟩ := List.exists_cons_of_ne_nil hne
  have hrest := runs_label (p := p + 1) (w := [b]) (by simp)
    fun c hc => ht c (List.mem_cons_of_mem _ hc)
  rw [← List.append_nil (List.map _ _)]
  exact .cons (step_lineState closed (ht b List.mem_cons_self)) (firstActs_goes closed b) hrest

/-- The value of a field and the line end, behind the blank. -/
theorem runs_fieldValue {i : Text × Text} (h : PlainField i) :
    Runs HttpResponseParser.stop blankState p (i.2 ++ crlf)
      [(p, .startValue), (p + i.2.length, .writeValue)] headerState := by
  obtain ⟨-, hopen, hempty, hloop, hend, hfeed⟩ := value_edges
  obtain ⟨name, value⟩ := i
  cases value with
  | nil =>
      exact .cons (step_of_leads hempty rfl) rfl (.cons_silent (step_of_leads hfeed rfl) .nil)
  | cons b t =>
      have hsolid : solidBytes.mem b :=
        ByteSet.mem_diff.mpr ⟨h.value_mem b List.mem_cons_self, h.value_head b rfl⟩
      have hrest : Runs HttpResponseParser.stop valueState (p + 1) t [] valueState :=
        .loop (fun c => step_of_leads hloop) fun c hc =>
          h.value_mem c (List.mem_cons_of_mem _ hc)
      rw [List.length_cons, Nat.add_comm t.length 1, ← Nat.add_assoc]
      exact .cons (step_of_exits hopen hsolid) rfl (hrest.append_silent
        (.cons (step_of_exits hend rfl) rfl (.cons_silent (step_of_leads hfeed rfl) .nil)))

/-- A header line with a name that the machine does not know. -/
theorem runs_field (closed : Bool) {i : Text × Text} (h : PlainField i)
    (hother : lower i.1 ∉ specialNames) :
    Runs HttpResponseParser.stop (lineState closed) p (fieldText i) (fieldEvents closed false p i)
      headerState := by
  obtain ⟨hblank, -⟩ := value_edges
  have hsep : ascii ": " = [58, 32] := by decide
  have htext : fieldText i = i.1 ++ (58 :: 32 :: (i.2 ++ crlf)) := by simp [fieldText, hsep]
  rw [htext]
  exact (runs_name closed h.name_ne h.name_mem).append
    (.cons (step_labelState_colon h.name_ne hother) rfl
      (.cons (step_of_exits hblank rfl) rfl (runs_fieldValue h)))

/-- The actions on header lines from `p` on. -/
def fieldsEvents : Nat → List (Text × Text) → List (Nat × ResponseAction)
  | _, [] => []
  | p, i :: fields => fieldEvents false false p i ++ fieldsEvents (p + (fieldText i).length) fields

theorem runs_fields {fields : List (Text × Text)}
    (h : ∀ i ∈ fields, PlainField i ∧ lower i.1 ∉ specialNames) :
    Runs HttpResponseParser.stop headerState p (fieldsText fields) (fieldsEvents p fields)
      headerState := by
  induction fields generalizing p with
  | nil => exact .nil
  | cons i fields ih =>
      obtain ⟨hplain, hother⟩ := h i List.mem_cons_self
      rw [fieldsText, List.flatMap_cons]
      exact (runs_field false hplain hother).append
        (ih fun j hj => h j (List.mem_cons_of_mem _ hj))

theorem runs_connection (close : Bool) :
    Runs HttpResponseParser.stop headerState p (fieldText (connectionField close))
      (fieldEvents false false p (connectionField close)) (lineState close) := by
  have hstop : ∀ i, ∀ e ∈ fieldEvents false false 0 i, HttpResponseParser.stop e.2 = false := by
    intro i e he
    simp only [fieldEvents, firstActs, valueActs, Bool.not_false, if_true, Bool.false_eq_true,
      if_false, List.map_cons, List.map_nil, List.cons_append, List.nil_append, List.mem_cons,
      List.not_mem_nil, or_false] at he
    obtain rfl | rfl | rfl | rfl | rfl := he <;> rfl
  have hshift : ∀ i, (fieldEvents false false 0 i).map (fun e => (p + e.1, e.2)) =
      fieldEvents false false p i := by
    intro i
    simp [fieldEvents, firstActs, valueActs, Nat.add_assoc]
  cases close with
  | false =>
      rw [← hshift]
      exact (Runs.of_walk connection_edges.2 (hstop _)).shift p
  | true =>
      rw [← hshift]
      exact (Runs.of_walk connection_edges.1 (hstop _)).shift p

theorem runs_length (closed : Bool) {digits : Text} (hne : digits ≠ [])
    (hdigits : ∀ b ∈ digits, ByteSet.digit.mem b) :
    Runs HttpResponseParser.stop (lineState closed) p
      (fieldText (ascii "Content-length", digits))
      (fieldEvents closed true p (ascii "Content-length", digits)) headerState := by
  obtain ⟨hopen, hclosed, hfirst, hloop, hend, hfeed⟩ := length_edges
  have hname : Runs HttpResponseParser.stop (lineState closed) p (ascii "Content-length: ")
      ((firstActs closed 67).map (p, ·) ++ [(p + 14, .writeField), (p + 15, .startValue)])
      lengthState := by
    cases closed with
    | false => exact (Runs.of_walk hopen (by decide)).shift p
    | true => exact (Runs.of_walk hclosed (by decide)).shift p
  have htext : fieldText (ascii "Content-length", digits) =
      ascii "Content-length: " ++ (digits ++ crlf) := by
    have hsplit : ascii "Content-length: " = ascii "Content-length" ++ ascii ": " := by decide
    rw [fieldText, hsplit]
    simp only [List.append_assoc]
  obtain ⟨b, t, rfl⟩ := List.exists_cons_of_ne_nil hne
  have hrest : Runs HttpResponseParser.stop digitState (p + 16 + 1) t [] digitState :=
    .loop (fun c => step_of_leads hloop) fun c hc => hdigits c (List.mem_cons_of_mem _ hc)
  have hvalue : Runs HttpResponseParser.stop lengthState (p + 16) ((b :: t) ++ crlf)
      [(p + 16, .startValue), (p + 16 + 1 + t.length, .writeContentLen),
        (p + 16 + 1 + t.length, .writeValue)] headerState :=
    .cons (step_of_exits hfirst (hdigits b List.mem_cons_self)) rfl (hrest.append_silent
      (.cons (step_of_exits hend rfl) rfl (.cons_silent (step_of_leads hfeed rfl) .nil)))
  have hrun := hname.append hvalue
  have hwidth : (ascii "Content-length").length = 14 := by decide
  rw [htext, fieldEvents, hwidth, List.length_cons, Nat.add_comm t.length 1, ← Nat.add_assoc]
  rw [List.append_assoc] at hrun
  exact hrun

/-- The blank line completes the head. -/
theorem scan_headEnd (closed : Bool) :
    scan HttpResponseParser.stop (lineState closed) p crlf =
      ((endActs closed).map (p, ·) ++ [(p + 1, .done)],
        .broke (stateThrough headEnd [10]) (p + 2)) := by
  obtain ⟨-, -, hopen, -, -, hclosed, hfeed, -⟩ := line_edges
  have hfirst : Runs HttpResponseParser.stop (lineState closed) p [13]
      ((endActs closed).map (p, ·)) headEnd := by
    cases closed with
    | false => exact .cons (step_of_exits hopen rfl) rfl .nil
    | true => exact .cons (step_of_leads hclosed rfl) rfl .nil
  exact hfirst.append_broke (scan_breaks _ (step_of_exits hfeed rfl) rfl (p + 1) [])

/-- The actions on a status line. -/
def statusEvents (digits reason : Text) : List (Nat × ResponseAction) :=
  let blank := 9 + digits.length
  [(0, .mark), (8, .httpVersion), (9, .mark), (blank, .statusCode), (blank + 1, .mark),
    (blank + 1 + reason.length, .reasonPhrase)]

theorem runs_statusLine {v : UInt8} (hv : v = 0x10 ∨ v = 0x11) {digits reason : Text}
    (hne : digits ≠ []) (hdigits : ∀ b ∈ digits, ByteSet.digit.mem b) (hreason : reason ≠ [])
    (hbytes : ∀ b ∈ reason, reasonBytes.mem b) :
    Runs HttpResponseParser.stop responseStart 0
      ((versionText v ++ ascii " ") ++ (digits ++ (32 :: (reason ++ crlf))))
      (statusEvents digits reason) headerState := by
  obtain ⟨hfirst, hloop, hblank, hopen, hloop', hend, hfeed⟩ := status_edges
  have hversion : Runs HttpResponseParser.stop responseStart 0 (versionText v ++ ascii " ")
      [(0, .mark), (8, .httpVersion)] statusStart := by
    obtain rfl | rfl := hv
    · exact .of_walk version_edges.2 (by decide)
    · exact .of_walk version_edges.1 (by decide)
  have hwidth : (versionText v ++ ascii " ").length = 9 := by
    obtain rfl | rfl := hv <;> decide
  obtain ⟨b, t, rfl⟩ := List.exists_cons_of_ne_nil hne
  obtain ⟨c, u, rfl⟩ := List.exists_cons_of_ne_nil hreason
  have hstatus : Runs HttpResponseParser.stop statusState (9 + 1) t [] statusState :=
    .loop (fun d => step_of_leads hloop) fun d hd => hdigits d (List.mem_cons_of_mem _ hd)
  have htext : Runs HttpResponseParser.stop reasonState (9 + (b :: t).length + 1 + 1) u []
      reasonState :=
    .loop (fun d => step_of_leads hloop') fun d hd => hbytes d (List.mem_cons_of_mem _ hd)
  have hcode : Runs HttpResponseParser.stop statusStart 9 (b :: t) [(9, .mark)] statusState :=
    .cons (step_of_exits hfirst (hdigits b List.mem_cons_self)) rfl hstatus
  have hphrase : Runs HttpResponseParser.stop reasonStart (9 + (b :: t).length + 1)
      ((c :: u) ++ crlf) [(9 + (b :: t).length + 1, .mark),
        (9 + (b :: t).length + 1 + 1 + u.length, .reasonPhrase)] headerState :=
    .cons (step_of_exits hopen (hbytes c List.mem_cons_self)) rfl (htext.append_silent
      (.cons (step_of_exits hend rfl) rfl (.cons_silent (step_of_exits hfeed rfl) .nil)))
  have hrest : Runs HttpResponseParser.stop statusStart 9
      ((b :: t) ++ (32 :: ((c :: u) ++ crlf))) _ headerState :=
    hcode.append (.cons (step_of_exits hblank rfl) rfl hphrase)
  have hrun := hversion.append (by rw [Nat.zero_add, hwidth]; exact hrest)
  rw [statusEvents, List.length_cons (a := c), Nat.add_comm u.length 1, ← Nat.add_assoc]
  exact hrun

end Runs

end Sylar.Http.ResponseStates
