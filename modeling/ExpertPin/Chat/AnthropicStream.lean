import ExpertPin.Chat.Anthropic

/-!
# Event streams that can be read

A reader of the stream keeps the blocks of the message.  A block is started with the next index,
its deltas are of its kind, and after it is stopped there is nothing more of it.  What a generation
sends can be read if and only if the message is started by the first result with something in it,
the kinds of blocks come in the order in which the formatters number them, each tool call is named
once, and the final result does not go on with one that is started.
-/

namespace ExpertPin.Chat

open List

/-! ## Readers -/

inductive BlockKind where
  | thinking
  | text
  | toolUse
deriving DecidableEq, Repr

def ContentBlock.kind : ContentBlock → BlockKind
  | .thinking => .thinking
  | .text => .text
  | .toolUse .. => .toolUse

def BlockDelta.kind : BlockDelta → BlockKind
  | .thinking _ | .signature _ => .thinking
  | .text _ => .text
  | .inputJson _ => .toolUse

/-- How far a stream has been read: the blocks of the message, and which ones are stopped. -/
inductive Reader where
  | start
  | message (blocks : List BlockKind) (closed : List ℕ)
  | ended
  | stopped
deriving DecidableEq, Repr

def Reader.step : Reader → Event → Option Reader
  | .start, .messageStart .. => some (.message [] [])
  | .message blocks closed, .contentBlockStart index block =>
    if index = blocks.length then some (.message (blocks ++ [block.kind]) closed) else none
  | .message blocks closed, .contentBlockDelta index delta =>
    if blocks[index]? = some delta.kind ∧ index ∉ closed then some (.message blocks closed)
    else none
  | .message blocks closed, .contentBlockStop index =>
    if index < blocks.length ∧ index ∉ closed then some (.message blocks (index :: closed))
    else none
  | .message blocks closed, .messageDelta .. =>
    if ∀ i < blocks.length, i ∈ closed then some .ended else none
  | .ended, .messageStop => some .stopped
  | _, _ => none

def Reader.reads (s : Reader) (events : List Event) : Option Reader := events.foldlM step s

/-- The message is started once and first, each block is started once before its deltas and stopped
once after them, and the message ends once. -/
def WellFormed (events : List Event) : Prop := Reader.start.reads events = some .stopped

instance (events : List Event) : Decidable (WellFormed events) :=
  inferInstanceAs (Decidable (_ = _))

/-! ## Blocks in order -/

/-- The blocks of a message in the order of their indices: reasoning, text, and tool calls. -/
structure Blocks where
  thinking : Bool := false
  text : Bool := false
  tools : ℕ := 0
deriving DecidableEq, Repr

namespace Blocks

def kinds (b : Blocks) : List BlockKind :=
  (if b.thinking then [.thinking] else []) ++ (if b.text then [.text] else []) ++
    List.replicate b.tools .toolUse

def reader (b : Blocks) : Reader := .message b.kinds []

def reason (b : Blocks) (diff : MsgDiff) : Blocks :=
  { b with thinking := b.thinking || decide (diff.reasoningContentDelta ≠ []) }

def say (b : Blocks) (diff : MsgDiff) : Blocks :=
  { b with text := b.text || decide (diff.contentDelta ≠ []) }

/-- A tool call that is named is started. -/
def call (b : Blocks) (diff : MsgDiff) : Blocks :=
  if diff.toolCallIndex.isSome ∧ diff.toolCallDelta.name ≠ [] then { b with tools := b.tools + 1 }
  else b

/-- Reasoning is started before everything else. -/
def Reasons (b : Blocks) (diff : MsgDiff) : Prop :=
  diff.reasoningContentDelta ≠ [] → b.thinking = true ∨ b.text = false ∧ b.tools = 0

/-- Text is started before tool calls, and its index is that after the reasoning. -/
def Says (b : Blocks) (textBlockIndex : ℕ) (diff : MsgDiff) : Prop :=
  diff.contentDelta ≠ [] → textBlockIndex = b.thinking.toNat ∧ (b.text = true ∨ b.tools = 0)

/-- A tool call in a partial result is named when its index is the next one, and its arguments
come after that.  `hasReasoning` stands for the reasoning in its index. -/
def Calls (b : Blocks) (hasReasoning : Bool) (diff : MsgDiff) : Prop :=
  ∀ i, diff.toolCallIndex = some i →
    (diff.toolCallDelta.name ≠ [] → i + hasReasoning.toNat = b.tools + b.thinking.toNat) ∧
      (diff.toolCallDelta.arguments ≠ [] → b.thinking.toNat ≤ i + hasReasoning.toNat ∧
        i + hasReasoning.toNat < (b.call diff).tools + b.thinking.toNat)

/-- A tool call in the final result is started unless it has been started there. -/
def finalCall (b : Blocks) (toolCallsStarted : List ℕ) (diff : MsgDiff) : Blocks :=
  if ∃ i ∈ diff.toolCallIndex, i ∉ toolCallsStarted then { b with tools := b.tools + 1 } else b

/-- A tool call of the final result has not been started before. -/
def FinalCalls (b : Blocks) (toolCallsStarted : List ℕ) (diff : MsgDiff) : Prop :=
  ∀ i, diff.toolCallIndex = some i → (i ∉ toolCallsStarted → i = b.tools) ∧
      (diff.toolCallDelta.arguments ≠ [] → i < (b.finalCall toolCallsStarted diff).tools)

variable {b : Blocks} {s : Reader} {diff : MsgDiff}

theorem reads_append (r : Reader) (xs ys : List Event) :
    r.reads (xs ++ ys) = some s ↔ ∃ r', r.reads xs = some r' ∧ r'.reads ys = some s := by
  rw [Reader.reads, foldlM_append]
  exact Option.bind_eq_some_iff

/-- Where it is known when the first events are read, the others are read from there. -/
theorem reads_append_iff {r r' : Reader} {xs ys : List Event} {P : Prop}
    (hx : ∀ s, r.reads xs = some s ↔ P ∧ s = r') :
    r.reads (xs ++ ys) = some s ↔ P ∧ r'.reads ys = some s := by
  rw [reads_append]
  simp only [hx, and_assoc, exists_and_left, exists_eq_left]

theorem length_kinds (b : Blocks) : b.kinds.length = b.thinking.toNat + b.text.toNat + b.tools := by
  obtain ⟨thinking, text, tools⟩ := b
  cases thinking <;> cases text <;> simp [kinds] <;> omega

theorem kinds_thinking (index : ℕ) :
    b.kinds[index]? = some .thinking ↔ b.thinking = true ∧ index = 0 := by
  obtain ⟨thinking, text, tools⟩ := b
  cases thinking <;> cases text <;> rcases index with _ | _ | index <;>
    simp [kinds, getElem?_replicate]

theorem kinds_text (index : ℕ) :
    b.kinds[index]? = some .text ↔ b.text = true ∧ index = b.thinking.toNat := by
  obtain ⟨thinking, text, tools⟩ := b
  cases thinking <;> cases text <;> rcases index with _ | _ | index <;>
    simp [kinds, getElem?_replicate]

theorem kinds_toolUse (index : ℕ) :
    b.kinds[index]? = some .toolUse ↔ b.thinking.toNat + b.text.toNat ≤ index ∧
      index < b.thinking.toNat + b.text.toNat + b.tools := by
  obtain ⟨thinking, text, tools⟩ := b
  cases thinking <;> cases text <;> rcases index with _ | _ | index <;>
    simp [kinds, getElem?_replicate] <;> omega

/-! ## The events of a delta -/

theorem reads_nil (r : Reader) : r.reads [] = some s ↔ s = r :=
  ⟨fun h => (Option.some.inj h).symm, fun h => congrArg some h.symm⟩

/-- One event, which is read where a condition holds. -/
theorem reads_if {p : Prop} [Decidable p] {r : Reader} :
    (if p then some r else none) >>= some = some s ↔ p ∧ s = r := by
  by_cases h : p
  · rw [if_pos h, and_iff_right h]
    exact ⟨fun h => (Option.some.inj h).symm, fun h => congrArg some h.symm⟩
  · rw [if_neg h]
    exact iff_of_false (fun h => by cases h) fun hs => h hs.1

theorem reads_start (index : ℕ) (block : ContentBlock) :
    b.reader.reads [.contentBlockStart index block] = some s ↔
      index = b.thinking.toNat + b.text.toNat + b.tools ∧
        s = .message (b.kinds ++ [block.kind]) [] := by
  show (if index = b.kinds.length then some (Reader.message (b.kinds ++ [block.kind]) []) else none)
    >>= some = some s ↔ _
  rw [reads_if, b.length_kinds]

theorem reads_delta (kinds : List BlockKind) (index : ℕ) (delta : BlockDelta) :
    (Reader.message kinds []).reads [.contentBlockDelta index delta] = some s ↔
      kinds[index]? = some delta.kind ∧ s = .message kinds [] := by
  show (if kinds[index]? = some delta.kind ∧ index ∉ ([] : List ℕ) then
    some (Reader.message kinds []) else none) >>= some = some s ↔ _
  rw [reads_if, and_iff_left not_mem_nil]

/-- A block that is started takes a delta of its kind. -/
theorem reads_opened {index : ℕ} {block : ContentBlock} {delta : BlockDelta}
    (hkind : block.kind = delta.kind) :
    b.reader.reads ([.contentBlockStart index block] ++ [.contentBlockDelta index delta]) = some s ↔
      index = b.thinking.toNat + b.text.toNat + b.tools ∧
        s = .message (b.kinds ++ [delta.kind]) [] := by
  rw [reads_append_iff fun _ => reads_start index block, hkind, reads_delta]
  refine and_congr_right fun hindex => and_iff_right ?_
  rw [hindex, ← length_kinds, getElem?_concat_length]

theorem kinds_of_thinking (htext : b.text = false) (htools : b.tools = 0)
    (hthinking : b.thinking = false) :
    b.kinds ++ [.thinking] = ({ b with thinking := true } : Blocks).kinds := by
  simp [kinds, htext, htools, hthinking]

theorem kinds_of_text (htext : b.text = false) (htools : b.tools = 0) :
    b.kinds ++ [.text] = ({ b with text := true } : Blocks).kinds := by
  simp [kinds, htext, htools]

theorem kinds_of_toolUse (b : Blocks) :
    b.kinds ++ [.toolUse] = ({ b with tools := b.tools + 1 } : Blocks).kinds := by
  simp [kinds, replicate_succ']

theorem reads_reasoning : b.reader.reads (reasoningEvents b.thinking diff) = some s ↔
      b.Reasons diff ∧ s = (b.reason diff).reader := by
  unfold reasoningEvents Reasons reason
  by_cases hdelta : diff.reasoningContentDelta = []
  · simp only [hdelta, ne_eq, not_true, if_false, decide_false, Bool.or_false, false_implies,
      true_and]
    exact reads_nil b.reader
  · simp only [hdelta, ne_eq, not_false_eq_true, if_true, decide_true, Bool.or_true, true_implies]
    rw [blockEvents]
    cases hthinking : b.thinking with
    | true =>
      have hsame : ({ b with thinking := true } : Blocks) = b := by
        rw [← hthinking]
      simp only [if_true, true_or, true_and, nil_append]
      rw [hsame, reader, reads_delta]
      exact and_iff_right ((kinds_thinking 0).mpr ⟨hthinking, rfl⟩)
    | false =>
      simp only [Bool.false_eq_true, if_false, false_or]
      rw [reads_opened rfl, hthinking, Bool.toNat_false, Nat.zero_add]
      constructor
      · rintro ⟨hindex, rfl⟩
        obtain ⟨htext, htools⟩ := Nat.add_eq_zero_iff.mp hindex.symm
        have htext := Bool.toNat_eq_zero.mp htext
        exact ⟨⟨htext, htools⟩, congrArg (Reader.message · [])
          (kinds_of_thinking htext htools hthinking)⟩
      · rintro ⟨⟨htext, htools⟩, rfl⟩
        refine ⟨?_, congrArg (Reader.message · []) (kinds_of_thinking htext htools hthinking).symm⟩
        rw [htext, htools]
        rfl

variable {textBlockIndex : ℕ}

theorem reads_content
    (hindex : b.text = false → textBlockIndex ≤ b.thinking.toNat) :
    b.reader.reads (contentEvents b.text textBlockIndex diff) = some s ↔
      b.Says textBlockIndex diff ∧ s = (b.say diff).reader := by
  unfold contentEvents Says say
  by_cases hdelta : diff.contentDelta = []
  · simp only [hdelta, ne_eq, not_true, if_false, decide_false, Bool.or_false, false_implies,
      true_and]
    exact reads_nil b.reader
  · simp only [hdelta, ne_eq, not_false_eq_true, if_true, decide_true, Bool.or_true, true_implies]
    rw [blockEvents]
    cases htext : b.text with
    | true =>
      have hsame : ({ b with text := true } : Blocks) = b := by
        rw [← htext]
      simp only [if_true, true_or, and_true, nil_append]
      rw [hsame, reader, reads_delta]
      exact and_congr_left fun _ => (kinds_text textBlockIndex).trans (and_iff_right htext)
    | false =>
      simp only [Bool.false_eq_true, if_false, false_or]
      rw [reads_opened rfl, htext, Bool.toNat_false]
      have hle := hindex htext
      constructor
      · rintro ⟨hcount, rfl⟩
        have htools : b.tools = 0 := by omega
        exact ⟨⟨by omega, htools⟩, congrArg (Reader.message · []) (kinds_of_text htext htools)⟩
      · rintro ⟨⟨hcount, htools⟩, rfl⟩
        exact ⟨by omega, congrArg (Reader.message · []) (kinds_of_text htext htools).symm⟩

/-- The arguments of a tool call, after its start if `p`. -/
theorem reads_arguments {block : ContentBlock} (hkind : block.kind = .toolUse) (p : Prop)
    [Decidable p] (index : ℕ) (arguments : Text) :
    b.reader.reads ((if p then [.contentBlockStart index block] else []) ++
      argumentsEvents index arguments) = some s ↔
      ((p → index = b.thinking.toNat + b.text.toNat + b.tools) ∧
        (arguments ≠ [] → b.thinking.toNat + b.text.toNat ≤ index ∧
          index < b.thinking.toNat + b.text.toNat + if p then b.tools + 1 else b.tools)) ∧
      s = ({ b with tools := if p then b.tools + 1 else b.tools } : Blocks).reader := by
  have hdelta : ∀ b' : Blocks, b'.reader.reads (argumentsEvents index arguments) = some s ↔
      (arguments ≠ [] → b'.thinking.toNat + b'.text.toNat ≤ index ∧
        index < b'.thinking.toNat + b'.text.toNat + b'.tools) ∧ s = b'.reader := by
    intro b'
    unfold argumentsEvents
    by_cases harguments : arguments = []
    · rw [if_neg (not_not.mpr harguments), reads_nil]
      exact (and_iff_right fun h => absurd harguments h).symm
    · rw [if_pos harguments, reader, reads_delta, imp_iff_right harguments]
      exact and_congr_left fun _ => kinds_toolUse index
  by_cases hp : p
  · simp only [if_pos hp]
    rw [reads_append_iff fun _ => reads_start index block, hkind, kinds_of_toolUse,
      imp_iff_right hp, and_assoc]
    exact and_congr_right fun _ => hdelta { b with tools := b.tools + 1 }
  · simp only [if_neg hp, nil_append, hdelta]
    exact and_congr_left fun _ => (and_iff_right fun h => absurd h hp).symm

theorem reads_toolCall {hasReasoning : Bool} :
    b.reader.reads (toolCallEvents (hasReasoning.toNat + b.text.toNat) diff) = some s ↔
      b.Calls hasReasoning diff ∧ s = (b.call diff).reader := by
  unfold toolCallEvents Calls call
  cases hindex : diff.toolCallIndex with
  | none =>
    simp only [Option.isSome_none, Bool.false_eq_true, false_and, if_false]
    rw [reads_nil]
    exact (and_iff_right fun i hi => by cases hi).symm
  | some i =>
    simp only [Option.isSome_some, true_and, Option.some.injEq, forall_eq']
    rw [reads_arguments rfl]
    by_cases hname : diff.toolCallDelta.name = []
    · simp only [hname, ne_eq, not_true, false_implies, true_and, if_false]
      refine and_congr_left fun _ => imp_congr_right fun _ => ?_
      omega
    · simp only [hname, ne_eq, not_false_eq_true, true_implies, if_true]
      refine and_congr_left fun _ => and_congr ?_ (imp_congr_right fun _ => ?_)
      · omega
      · omega

variable {toolCallsStarted : List ℕ}

theorem reads_finalToolCall {msg : Msg} :
    b.reader.reads (finalToolCallEvents msg toolCallsStarted (b.thinking.toNat + b.text.toNat)
      diff) = some s ↔
      b.FinalCalls toolCallsStarted diff ∧ s = (b.finalCall toolCallsStarted diff).reader := by
  unfold finalToolCallEvents FinalCalls finalCall
  cases hindex : diff.toolCallIndex with
  | none =>
    simp only [Option.not_mem_none, false_and, exists_false, if_false]
    rw [reads_nil]
    exact (and_iff_right fun i hi => by cases hi).symm
  | some i =>
    simp only [Option.mem_some_iff, exists_eq_left', Option.some.injEq, forall_eq']
    rw [reads_arguments rfl]
    by_cases hstarted : i ∈ toolCallsStarted
    · simp only [hstarted, not_true, false_implies, true_and, if_false]
      refine and_congr_left fun _ => imp_congr_right fun _ => ?_
      omega
    · simp only [hstarted, not_false_eq_true, true_implies, if_true]
      refine and_congr_left fun _ => and_congr ?_ (imp_congr_right fun _ => ?_)
      · omega
      · omega

/-! ## The events of a result -/

/-- The blocks after a delta of a partial result. -/
def next (b : Blocks) (diff : MsgDiff) : Blocks := ((b.reason diff).say diff).call diff

/-- The deltas of a partial result fit the blocks that there are. -/
def Fits (hasReasoning : Bool) (b : Blocks) : List MsgDiff → Prop
  | [] => True
  | diff :: diffs =>
    b.Reasons diff ∧ (b.reason diff).Says hasReasoning.toNat diff ∧
      ((b.reason diff).say diff).Calls hasReasoning diff ∧ Fits hasReasoning (b.next diff) diffs

/-- The blocks after a delta of the final result. -/
def finalNext (b : Blocks) (toolCallsStarted : List ℕ) (diff : MsgDiff) : Blocks :=
  ((b.reason diff).say diff).finalCall toolCallsStarted diff

/-- The blocks after the final result. -/
def finalBlocks (b : Blocks) : List ℕ → List MsgDiff → Blocks
  | _, [] => b
  | toolCallsStarted, diff :: diffs =>
    (b.finalNext toolCallsStarted diff).finalBlocks
      (toolCallsStarted ++ diff.toolCallIndex.toList) diffs

/-- The deltas of the final result fit the blocks that there are. -/
def FinalFits (textBlockIndex : ℕ) (b : Blocks) : List ℕ → List MsgDiff → Prop
  | _, [] => True
  | toolCallsStarted, diff :: diffs =>
    b.Reasons diff ∧ (b.reason diff).Says textBlockIndex diff ∧
      ((b.reason diff).say diff).FinalCalls toolCallsStarted diff ∧
      FinalFits textBlockIndex (b.finalNext toolCallsStarted diff)
        (toolCallsStarted ++ diff.toolCallIndex.toList) diffs

/-- A message that has reasoning and is not begun otherwise is begun with reasoning. -/
def Led (hasReasoning : Bool) (b : Blocks) (diffs : List MsgDiff) : Prop :=
  b.text = false → b.thinking = false → hasReasoning = true →
    ∃ diff ∈ diffs.head?, diff.reasoningContentDelta ≠ []

@[simp] theorem call_thinking : (b.call diff).thinking = b.thinking := by
  unfold call
  split <;> rfl

@[simp] theorem call_text : (b.call diff).text = b.text := by
  unfold call
  split <;> rfl

@[simp] theorem finalCall_thinking :
    (b.finalCall toolCallsStarted diff).thinking = b.thinking := by
  unfold finalCall
  split <;> rfl

@[simp] theorem finalCall_text :
    (b.finalCall toolCallsStarted diff).text = b.text := by
  unfold finalCall
  split <;> rfl

@[simp] theorem next_thinking :
    (b.next diff).thinking = (b.thinking || decide (diff.reasoningContentDelta ≠ [])) :=
  call_thinking

@[simp] theorem next_text : (b.next diff).text = (b.text || decide (diff.contentDelta ≠ [])) :=
  call_text

@[simp] theorem finalNext_thinking :
    (b.finalNext toolCallsStarted diff).thinking =
      (b.thinking || decide (diff.reasoningContentDelta ≠ [])) :=
  finalCall_thinking

@[simp] theorem finalNext_text :
    (b.finalNext toolCallsStarted diff).text = (b.text || decide (diff.contentDelta ≠ [])) :=
  finalCall_text

/-- The events of one delta, up to its tool call. -/
theorem reads_text
    (hindex : (b.reason diff).text = false → textBlockIndex ≤ (b.reason diff).thinking.toNat) :
    b.reader.reads (reasoningEvents b.thinking diff ++ contentEvents b.text textBlockIndex diff) =
      some s ↔ b.Reasons diff ∧ (b.reason diff).Says textBlockIndex diff ∧
        s = ((b.reason diff).say diff).reader := by
  rw [reads_append_iff fun _ => reads_reasoning]
  exact and_congr_right fun _ => reads_content hindex

theorem Led.thinking {hasReasoning : Bool} {diffs : List MsgDiff}
    (hled : Led hasReasoning b (diff :: diffs)) (htext : b.text = false)
    (hreasoning : hasReasoning = true) : (b.reason diff).thinking = true := by
  cases hthinking : b.thinking with
  | true => simp [reason, hthinking]
  | false =>
    obtain ⟨d, hd, hdelta⟩ := hled htext hthinking hreasoning
    obtain rfl := Option.some.inj hd
    simp [reason, hdelta]

theorem reads_partialEvents {hasReasoning : Bool} {diffs : List MsgDiff}
    (hled : Led hasReasoning b diffs) :
    b.reader.reads (partialEvents hasReasoning b.thinking b.text diffs) = some s ↔
      Fits hasReasoning b diffs ∧ s = (diffs.foldl next b).reader := by
  induction diffs generalizing b with
  | nil => simp only [partialEvents, Fits, foldl_nil, true_and, reads_nil]
  | cons diff diffs ih =>
    have hindex : (b.reason diff).text = false →
        hasReasoning.toNat ≤ (b.reason diff).thinking.toNat := by
      intro htext
      cases hreasoning : hasReasoning with
      | true => rw [hled.thinking htext hreasoning]
      | false => exact Nat.zero_le _
    have hrest : Led hasReasoning (b.next diff) diffs := by
      intro htext hthinking hreasoning
      rw [next_text, Bool.or_eq_false_iff] at htext
      have hstarted : (b.next diff).thinking = true := by
        rw [next_thinking]
        exact hled.thinking htext.1 hreasoning
      rw [hthinking] at hstarted
      cases hstarted
    have hnext : (b.next diff).reader.reads
        (partialEvents hasReasoning (b.thinking || decide (diff.reasoningContentDelta ≠ []))
          (b.text || decide (diff.contentDelta ≠ [])) diffs) = some s ↔
        Fits hasReasoning (b.next diff) diffs ∧ s = (diffs.foldl next (b.next diff)).reader := by
      rw [← ih hrest, next_thinking, next_text]
    rw [partialEvents, append_assoc,
      reads_append_iff fun _ => (reads_text hindex).trans and_assoc.symm]
    refine (and_congr_right fun _ => (reads_append_iff fun _ => reads_toolCall).trans
      (and_congr_right fun _ => hnext)).trans ?_
    simp only [foldl_cons, Fits, and_assoc]

theorem reads_finalEvents {msg : Msg}
    {diffs : List MsgDiff} (hindex : textBlockIndex ≤ b.thinking.toNat) :
    b.reader.reads (finalEvents msg textBlockIndex b.thinking b.text toolCallsStarted diffs).1 =
      some s ↔ FinalFits textBlockIndex b toolCallsStarted diffs ∧
        s = (b.finalBlocks toolCallsStarted diffs).reader := by
  induction diffs generalizing b toolCallsStarted with
  | nil => simp only [finalEvents, FinalFits, finalBlocks, true_and, reads_nil]
  | cons diff diffs ih =>
    have hreason : textBlockIndex ≤ (b.reason diff).thinking.toNat := by
      refine hindex.trans ?_
      cases hthinking : b.thinking with
      | true => simp [reason, hthinking]
      | false => exact Nat.zero_le _
    have hnext : (b.finalNext toolCallsStarted diff).reader.reads
        (finalEvents msg textBlockIndex (b.thinking || decide (diff.reasoningContentDelta ≠ []))
          (b.text || decide (diff.contentDelta ≠ []))
          (toolCallsStarted ++ diff.toolCallIndex.toList) diffs).1 = some s ↔
        FinalFits textBlockIndex (b.finalNext toolCallsStarted diff)
          (toolCallsStarted ++ diff.toolCallIndex.toList) diffs ∧
        s = ((b.finalNext toolCallsStarted diff).finalBlocks
          (toolCallsStarted ++ diff.toolCallIndex.toList) diffs).reader := by
      rw [← ih (by rwa [finalNext_thinking]), finalNext_thinking, finalNext_text]
    rw [finalEvents, append_assoc,
      reads_append_iff fun _ => (reads_text fun _ => hreason).trans and_assoc.symm]
    refine (and_congr_right fun _ => (reads_append_iff fun _ => reads_finalToolCall).trans
      (and_congr_right fun _ => hnext)).trans ?_
    simp only [finalBlocks, FinalFits, and_assoc]

theorem finalEvents_started {msg : Msg}
    {diffs : List MsgDiff} :
    (finalEvents msg textBlockIndex b.thinking b.text toolCallsStarted diffs).2 =
      ((b.finalBlocks toolCallsStarted diffs).thinking,
        (b.finalBlocks toolCallsStarted diffs).text) := by
  induction diffs generalizing b toolCallsStarted with
  | nil => rfl
  | cons diff diffs ih =>
    rw [finalBlocks, ← ih, finalNext_thinking, finalNext_text]
    rfl

/-- Where the deltas of the final result fit, the index of the text stays that after the
reasoning. -/
theorem FinalFits.textBlockIndex_eq
    {diffs : List MsgDiff} (hfits : FinalFits textBlockIndex b toolCallsStarted diffs)
    (hindex : b.text = true → textBlockIndex = b.thinking.toNat)
    (htext : (b.finalBlocks toolCallsStarted diffs).text = true) :
    textBlockIndex = (b.finalBlocks toolCallsStarted diffs).thinking.toNat := by
  induction diffs generalizing b toolCallsStarted with
  | nil => exact hindex htext
  | cons diff diffs ih =>
    obtain ⟨hreasons, hspeaks, _, hrest⟩ := hfits
    refine ih hrest ?_ htext
    intro hnext
    rw [finalNext_thinking]
    by_cases hcontent : diff.contentDelta = []
    · rw [finalNext_text, decide_eq_false (not_not.mpr hcontent), Bool.or_false] at hnext
      rw [hindex hnext]
      by_cases hreasoning : diff.reasoningContentDelta = []
      · simp [hreasoning]
      · rcases hreasons hreasoning with hthinking | ⟨hno, _⟩
        · simp [hthinking]
        · rw [hno] at hnext
          cases hnext
    · exact (hspeaks hcontent).1

/-! ## The end of the message -/

theorem reads_stop {blocks : List BlockKind} {closed : List ℕ} (index : ℕ) :
    (Reader.message blocks closed).reads [.contentBlockStop index] = some s ↔
      (index < blocks.length ∧ index ∉ closed) ∧ s = .message blocks (index :: closed) := by
  exact reads_if

theorem reads_stops {blocks : List BlockKind} (n : ℕ) :
    (Reader.message blocks []).reads ((List.range n).map .contentBlockStop) = some s ↔
      n ≤ blocks.length ∧ s = .message blocks (List.range n).reverse := by
  induction n generalizing s with
  | zero =>
    rw [range_zero, map_nil, reads_nil]
    exact (and_iff_right (Nat.zero_le _)).symm
  | succ n ih =>
    rw [range_succ, map_append, reads_append]
    constructor
    · rintro ⟨r, hbefore, hstop⟩
      obtain ⟨_, rfl⟩ := ih.mp hbefore
      obtain ⟨⟨hlt, _⟩, rfl⟩ := (reads_stop n).mp hstop
      exact ⟨hlt, by rw [reverse_append]; rfl⟩
    · rintro ⟨hle, rfl⟩
      refine ⟨_, ih.mpr ⟨Nat.le_of_succ_le hle, rfl⟩, (reads_stop n).mpr ⟨⟨hle, ?_⟩, ?_⟩⟩
      · simp only [mem_reverse, mem_range, lt_irrefl, not_false_eq_true]
      · rw [reverse_append]
        rfl

theorem stopEvents_eq (n : ℕ)
    (hindex : b.text = true → textBlockIndex = b.thinking.toNat) :
    stopEvents b.thinking b.text textBlockIndex n =
      (if b.thinking then [.contentBlockDelta 0 (.signature [])] else []) ++
        (List.range (b.thinking.toNat + b.text.toNat + n)).map .contentBlockStop := by
  rw [range_add, map_append, map_map, stopEvents, ← append_assoc]
  congr 1
  cases htext : b.text with
  | true =>
    rw [hindex htext]
    cases b.thinking <;> rfl
  | false => cases b.thinking <;> rfl

theorem reads_end {textBlockIndex n : ℕ} {reason : StopReason} {sequence : Option Text} {tokens : ℤ}
    (hindex : b.text = true → textBlockIndex = b.thinking.toNat) :
    b.reader.reads (stopEvents b.thinking b.text textBlockIndex n ++
      [.messageDelta reason sequence tokens, .messageStop]) = some .stopped ↔ n = b.tools := by
  have hsignature : b.reader.reads
      (if b.thinking then [.contentBlockDelta 0 (.signature [])] else []) = some b.reader := by
    cases hthinking : b.thinking with
    | true => exact (reads_delta _ 0 _).mpr ⟨(kinds_thinking 0).mpr ⟨hthinking, rfl⟩, rfl⟩
    | false => rfl
  have hends : ∀ closed, (Reader.message b.kinds closed).reads
      [.messageDelta reason sequence tokens, .messageStop] = some .stopped ↔
        ∀ i < b.kinds.length, i ∈ closed := by
    intro closed
    show ((if ∀ i < b.kinds.length, i ∈ closed then some Reader.ended else none) >>= fun r =>
      r.step .messageStop >>= some) = some .stopped ↔ _
    by_cases h : ∀ i < b.kinds.length, i ∈ closed
    · rw [if_pos h]
      exact iff_of_true rfl h
    · rw [if_neg h]
      exact iff_of_false (fun h => by cases h) h
  rw [stopEvents_eq n hindex, append_assoc, reads_append]
  constructor
  · rintro ⟨r, hr, hrest⟩
    obtain rfl := Option.some.inj (hsignature.symm.trans hr)
    obtain ⟨r, hstops, hend⟩ := (reads_append _ _ _).mp hrest
    obtain ⟨hle, rfl⟩ := (reads_stops _).mp hstops
    have hall := (hends _).mp hend
    simp only [length_kinds, mem_reverse, mem_range] at hle hall
    have hge : ¬n < b.tools := by
      intro hlt
      exact absurd (hall (b.thinking.toNat + b.text.toNat + n) (by omega)) (lt_irrefl _)
    omega
  · rintro rfl
    refine ⟨_, hsignature, (reads_append _ _ _).mpr ⟨_, (reads_stops _).mpr ⟨?_, rfl⟩, ?_⟩⟩
    · rw [length_kinds]
    · refine (hends _).mpr fun i hi => ?_
      rwa [mem_reverse, mem_range, ← length_kinds]

end Blocks

/-! ## Results that fit -/

/-- The final result fits the blocks that there are, and ends as many tool calls as it leaves. -/
def FinalResult.Fits (b : Blocks) (r : FinalResult) : Prop :=
  b.FinalFits b.thinking.toNat [] r.oaicompatMsgDiffs ∧
    r.oaicompatMsg.toolCalls.length = (b.finalBlocks [] r.oaicompatMsgDiffs).tools

/-- There is nothing in a delta that an event is sent for. -/
def MsgDiff.Silent (diff : MsgDiff) : Prop :=
  diff.reasoningContentDelta = [] ∧ diff.contentDelta = [] ∧
    (diff.toolCallIndex.isSome → diff.toolCallDelta.name = [] ∧ diff.toolCallDelta.arguments = [])

/-- What follows the start of a message: the results fit the blocks before them. -/
def Continues (final : FinalResult) (b : Blocks) : List PartialResult → Prop
  | [] => final.Fits b
  | r :: rs => r.nDecoded ≠ 1 ∧ b.Fits r.anthropicHasReasoning r.oaicompatMsgDiffs ∧
      Continues final (r.oaicompatMsgDiffs.foldl Blocks.next b) rs

/-- The result of the first token is sent, and there is nothing in those before it. -/
def Orderly (final : FinalResult) : List PartialResult → Prop
  | [] => False
  | r :: rs =>
    if r.nDecoded = 1 then
      ({} : Blocks).Fits r.anthropicHasReasoning r.oaicompatMsgDiffs ∧
        Continues final (r.oaicompatMsgDiffs.foldl Blocks.next {}) rs
    else (∀ diff ∈ r.oaicompatMsgDiffs, diff.Silent) ∧ Orderly final rs

theorem FinalResult.reads_iff {b : Blocks} {r : FinalResult}
    (hthinking : r.anthropicThinkingBlockStarted = b.thinking)
    (htext : r.anthropicTextBlockStarted = b.text) :
    b.reader.reads r.toJsonAnthropicStream = some .stopped ↔ r.Fits b := by
  rw [toJsonAnthropicStream, hthinking, htext, Blocks.finalEvents_started, append_assoc,
    Blocks.reads_append_iff fun _ => Blocks.reads_finalEvents (Nat.le_refl _), Fits]
  exact and_congr_right fun hfits => Blocks.reads_end (hfits.textBlockIndex_eq fun _ => rfl)

/-! ## Before the message is started -/

section Start

variable {e : Event} {diff : MsgDiff} {msg : Msg} {index : ℕ}

theorem step_of_mem_blockEvents {started : Bool} {block : ContentBlock} {delta : BlockDelta}
    (he : e ∈ blockEvents started index block delta) : Reader.start.step e = none := by
  rcases mem_append.mp he with he | he
  · cases started with
    | true => cases he
    | false =>
      rw [mem_singleton.mp he]
      rfl
  · rw [mem_singleton.mp he]
    rfl

theorem step_of_mem_reasoningEvents {started : Bool}
    (he : e ∈ reasoningEvents started diff) : Reader.start.step e = none := by
  unfold reasoningEvents at he
  split at he
  case isTrue => exact step_of_mem_blockEvents he
  case isFalse => cases he

theorem step_of_mem_contentEvents {started : Bool}
    (he : e ∈ contentEvents started index diff) : Reader.start.step e = none := by
  unfold contentEvents at he
  split at he
  case isTrue => exact step_of_mem_blockEvents he
  case isFalse => cases he

/-- The start and the arguments of a tool call. -/
theorem step_of_mem_arguments {p : Prop} [Decidable p] {block : ContentBlock} {arguments : Text}
    (he : e ∈ (if p then [.contentBlockStart index block] else []) ++
      argumentsEvents index arguments) : Reader.start.step e = none := by
  unfold argumentsEvents at he
  rcases mem_append.mp he with he | he
  · split at he
    case isTrue =>
      rw [mem_singleton.mp he]
      rfl
    case isFalse => cases he
  · split at he
    case isTrue =>
      rw [mem_singleton.mp he]
      rfl
    case isFalse => cases he

theorem step_of_mem_toolCallEvents (he : e ∈ toolCallEvents index diff) :
    Reader.start.step e = none := by
  unfold toolCallEvents at he
  split at he
  · exact step_of_mem_arguments he
  · cases he

theorem step_of_mem_finalToolCallEvents {toolCallsStarted : List ℕ}
    (he : e ∈ finalToolCallEvents msg toolCallsStarted index diff) :
    Reader.start.step e = none := by
  unfold finalToolCallEvents at he
  split at he
  · exact step_of_mem_arguments he
  · cases he

theorem step_of_mem_partialEvents {hasReasoning thinking text : Bool} {diffs : List MsgDiff}
    (he : e ∈ partialEvents hasReasoning thinking text diffs) : Reader.start.step e = none := by
  induction diffs generalizing thinking text with
  | nil => cases he
  | cons diff diffs ih =>
    simp only [partialEvents, mem_append] at he
    rcases he with ((he | he) | he) | he
    · exact step_of_mem_reasoningEvents he
    · exact step_of_mem_contentEvents he
    · exact step_of_mem_toolCallEvents he
    · exact ih he

theorem step_of_mem_finalEvents {thinking text : Bool} {toolCallsStarted : List ℕ}
    {diffs : List MsgDiff}
    (he : e ∈ (finalEvents msg index thinking text toolCallsStarted diffs).1) :
    Reader.start.step e = none := by
  induction diffs generalizing thinking text toolCallsStarted with
  | nil => cases he
  | cons diff diffs ih =>
    simp only [finalEvents, mem_append] at he
    rcases he with ((he | he) | he) | he
    · exact step_of_mem_reasoningEvents he
    · exact step_of_mem_contentEvents he
    · exact step_of_mem_finalToolCallEvents he
    · exact ih he

theorem step_of_mem_stopEvents {thinking text : Bool} {n : ℕ}
    (he : e ∈ stopEvents thinking text index n) : Reader.start.step e = none := by
  simp only [stopEvents, mem_append, mem_map] at he
  rcases he with (he | he) | ⟨i, _, rfl⟩
  · cases thinking with
    | true =>
      simp only [if_true, mem_cons, not_mem_nil, or_false] at he
      rcases he with rfl | rfl <;> rfl
    | false => cases he
  · cases text with
    | true =>
      rw [mem_singleton.mp he]
      rfl
    | false => cases he
  · rfl

end Start

theorem FinalResult.reads_start (r : FinalResult) :
    Reader.start.reads r.toJsonAnthropicStream = none := by
  have hnone : ∀ e ∈ r.toJsonAnthropicStream, Reader.start.step e = none := by
    intro e he
    simp only [toJsonAnthropicStream, mem_append, mem_cons, not_mem_nil,
      or_false] at he
    rcases he with (he | he) | rfl | rfl
    · exact step_of_mem_finalEvents he
    · exact step_of_mem_stopEvents he
    · rfl
    · rfl
  cases hevents : r.toJsonAnthropicStream with
  | nil => simp [toJsonAnthropicStream] at hevents
  | cons e events =>
    rw [hevents] at hnone
    rw [Reader.reads, foldlM_cons, hnone e (mem_cons_self ..)]
    rfl

theorem blockEvents_ne_nil {started : Bool} {index : ℕ} {block : ContentBlock}
    {delta : BlockDelta} : blockEvents started index block delta ≠ [] :=
  append_ne_nil_of_right_ne_nil _ (cons_ne_nil _ _)

theorem argumentsEvents_eq_nil {index : ℕ} {arguments : Text} :
    argumentsEvents index arguments = [] ↔ arguments = [] := by
  unfold argumentsEvents
  split
  case isTrue h => exact iff_of_false (cons_ne_nil _ _) h
  case isFalse h => exact iff_of_true rfl (not_not.mp h)

theorem toolCallEvents_eq_nil {index : ℕ} {diff : MsgDiff} : toolCallEvents index diff = [] ↔
    (diff.toolCallIndex.isSome →
      diff.toolCallDelta.name = [] ∧ diff.toolCallDelta.arguments = []) := by
  unfold toolCallEvents
  cases diff.toolCallIndex with
  | none => exact iff_of_true rfl fun h => by cases h
  | some i =>
    rw [append_eq_nil_iff, argumentsEvents_eq_nil, Option.isSome_some, imp_iff_right rfl]
    refine and_congr_left fun _ => ?_
    split
    case isTrue h => exact iff_of_false (cons_ne_nil _ _) h
    case isFalse h => exact iff_of_true rfl (not_not.mp h)

theorem partialEvents_eq_nil {hasReasoning thinking text : Bool} {diffs : List MsgDiff} :
    partialEvents hasReasoning thinking text diffs = [] ↔ ∀ diff ∈ diffs, diff.Silent := by
  induction diffs generalizing thinking text with
  | nil => exact iff_of_true rfl fun diff hdiff => by cases hdiff
  | cons diff diffs ih =>
    have hreasoning : reasoningEvents thinking diff = [] ↔ diff.reasoningContentDelta = [] := by
      unfold reasoningEvents
      split
      case isTrue h => exact iff_of_false blockEvents_ne_nil h
      case isFalse h => exact iff_of_true rfl (not_not.mp h)
    have hcontent : contentEvents text hasReasoning.toNat diff = [] ↔ diff.contentDelta = [] := by
      unfold contentEvents
      split
      case isTrue h => exact iff_of_false blockEvents_ne_nil h
      case isFalse h => exact iff_of_true rfl (not_not.mp h)
    rw [partialEvents, append_eq_nil_iff, append_eq_nil_iff, append_eq_nil_iff, ih,
      toolCallEvents_eq_nil, hreasoning, hcontent, forall_mem_cons, MsgDiff.Silent]
    simp only [and_assoc]

variable {r : PartialResult}

/-- A result before the message is started has to be without events. -/
theorem reads_start_step {s : Reader} {events : List Event}
    (hn : r.nDecoded ≠ 1) :
    Reader.start.reads (r.toJsonAnthropicPartial ++ events) = some s ↔
      (∀ diff ∈ r.oaicompatMsgDiffs, diff.Silent) ∧ Reader.start.reads events = some s := by
  have hsilent : partialEvents r.anthropicHasReasoning r.anthropicThinkingBlockStarted
      r.anthropicTextBlockStarted r.oaicompatMsgDiffs = [] ↔ _ := partialEvents_eq_nil
  rw [PartialResult.toJsonAnthropicPartial, if_neg hn, nil_append, ← hsilent]
  cases hevents : partialEvents r.anthropicHasReasoning r.anthropicThinkingBlockStarted
      r.anthropicTextBlockStarted r.oaicompatMsgDiffs with
  | nil => exact (and_iff_right rfl).symm
  | cons e es =>
    have hnone : Reader.start.step e = none :=
      step_of_mem_partialEvents (hevents ▸ mem_cons_self ..)
    rw [cons_append, Reader.reads, foldlM_cons, hnone]
    exact iff_of_false (fun h => by cases h) fun h => by cases h.1

theorem reads_start_first {s : Reader} {events : List Event}
    (hn : r.nDecoded = 1) :
    Reader.start.reads (r.toJsonAnthropicPartial ++ events) = some s ↔
      ({} : Blocks).reader.reads (partialEvents r.anthropicHasReasoning
        r.anthropicThinkingBlockStarted r.anthropicTextBlockStarted r.oaicompatMsgDiffs ++ events) =
          some s := by
  rw [PartialResult.toJsonAnthropicPartial, if_pos hn]
  exact Iff.rfl

theorem reads_partial {b : Blocks} {s : Reader} {events : List Event} :
    b.reader.reads (r.toJsonAnthropicPartial ++ events) = some s ↔
      r.nDecoded ≠ 1 ∧ b.reader.reads (partialEvents r.anthropicHasReasoning
        r.anthropicThinkingBlockStarted r.anthropicTextBlockStarted r.oaicompatMsgDiffs ++ events) =
          some s := by
  rw [PartialResult.toJsonAnthropicPartial]
  by_cases hn : r.nDecoded = 1
  · rw [if_pos hn]
    exact iff_of_false (fun h => by cases h) fun h => h.1 hn
  · rw [if_neg hn]
    exact (and_iff_right hn).symm

/-! ## Generations -/

/-- What a slot knows of the blocks that it has started. -/
structure ChatSlot.Tracks (slot : ChatSlot) (b : Blocks) : Prop where
  thinking : slot.anthropicThinkingBlockStarted = b.thinking
  text : slot.anthropicTextBlockStarted = b.text
  content : b.text = false → slot.chatMsg.content = []
  reasoning : b.text = false → b.thinking = false → slot.chatMsg.reasoningContent = []

theorem Blocks.foldl_next_thinking {b : Blocks} {diffs : List MsgDiff} :
    (diffs.foldl next b).thinking =
      (b.thinking || diffs.any fun diff => decide (diff.reasoningContentDelta ≠ [])) := by
  induction diffs generalizing b with
  | nil => exact (Bool.or_false _).symm
  | cons diff diffs ih => rw [foldl_cons, ih, next_thinking, any_cons, Bool.or_assoc]

theorem Blocks.foldl_next_text {b : Blocks} {diffs : List MsgDiff} : (diffs.foldl next b).text =
      (b.text || diffs.any fun diff => decide (diff.contentDelta ≠ [])) := by
  induction diffs generalizing b with
  | nil => exact (Bool.or_false _).symm
  | cons diff diffs ih => rw [foldl_cons, ih, next_text, any_cons, Bool.or_assoc]

theorem Blocks.foldl_next_silent {b : Blocks} {diffs : List MsgDiff}
    (h : ∀ diff ∈ diffs, diff.Silent) : diffs.foldl next b = b := by
  induction diffs with
  | nil => rfl
  | cons diff diffs ih =>
    obtain ⟨⟨hreasoning, hcontent, hcall⟩, hrest⟩ := forall_mem_cons.mp h
    have hnext : b.next diff = b := by
      have hcall' : ¬(diff.toolCallIndex.isSome ∧ diff.toolCallDelta.name ≠ []) :=
        fun h => h.2 (hcall h.1).1
      simp [next, call, hcall', reason, say, hreasoning, hcontent]
    rw [foldl_cons, hnext]
    exact ih hrest

section Diffs

variable {prv new : Msg} {diffs : List MsgDiff} {b : Blocks}

/-- What the text of a message was, where none of its delta is sent. -/
theorem content_eq_nil (h : computeDiffs prv new = .ok diffs) (hprv : prv.content = [])
    (hany : (diffs.any fun diff => decide (diff.contentDelta ≠ [])) = false) :
    new.content = [] := by
  obtain ⟨reasoning, content, last, _, hcontent, _, _, rfl⟩ := computeDiffs_ok h
  have hnew := (contentDelta_append hcontent).mpr (hprv ▸ nil_prefix)
  rw [hprv, nil_append] at hnew
  rw [← hnew]
  by_contra hne
  rw [any_eq_false] at hany
  refine hany { contentDelta := content } ?_ (decide_eq_true hne)
  simp [hne]

/-- The reasoning of a message before which there was none is sent first. -/
theorem reasoning_first (h : computeDiffs prv new = .ok diffs) (hcontent : prv.content = [])
    (hprv : prv.reasoningContent = []) (hnew : new.reasoningContent ≠ []) :
    ∃ diff ∈ diffs.head?, diff.reasoningContentDelta ≠ [] := by
  obtain ⟨reasoning, content, last, hreasoning, _, _, _, rfl⟩ := computeDiffs_ok h
  have heq : reasoning = new.reasoningContent := by
    have happend := (reasoningDelta_append hreasoning (hcontent ▸ nil_prefix)).mpr
      ⟨hprv ▸ nil_prefix, .inl hcontent⟩
    rwa [hprv, nil_append] at happend
  rw [← heq] at hnew
  refine ⟨{ reasoningContentDelta := reasoning }, ?_, hnew⟩
  rw [if_pos hnew]
  rfl

end Diffs

/-- A slot sends a result with its flags, and tracks the blocks that it starts. -/
theorem ChatSlot.sendPartialResponse_tracks {slot slot' : ChatSlot} {b : Blocks} {n : ℤ}
    {msg : Msg} (htracks : slot.Tracks b)
    (h : slot.sendPartialResponse n msg = .ok (slot', r)) :
    (r.anthropicThinkingBlockStarted = b.thinking ∧ r.anthropicTextBlockStarted = b.text) ∧
      Blocks.Led r.anthropicHasReasoning b r.oaicompatMsgDiffs ∧
      slot'.Tracks (r.oaicompatMsgDiffs.foldl Blocks.next b) := by
  obtain ⟨hthinking, htext, hcontent, hreasoning⟩ := htracks
  rw [sendPartialResponse, updateChatMsg] at h
  split at h
  case isTrue =>
    obtain ⟨rfl, rfl⟩ := Prod.mk.inj (Except.ok.inj h)
    refine ⟨⟨hthinking, htext⟩, ?_, ?_⟩
    · intro hno hno' hhas
      exact absurd (hreasoning hno hno') (of_decide_eq_true hhas)
    · exact ⟨by simpa using hthinking, by simpa using htext, hcontent, hreasoning⟩
  case isFalse =>
    cases hdiffs : computeDiffs slot.chatMsg msg with
    | error e =>
      rw [hdiffs] at h
      cases h
    | ok diffs =>
      rw [hdiffs] at h
      obtain ⟨rfl, rfl⟩ := Prod.mk.inj (Except.ok.inj h)
      refine ⟨⟨hthinking, htext⟩, ?_, ?_, ?_, ?_, ?_⟩
      · intro hno hno' hhas
        exact reasoning_first hdiffs (hcontent hno) (hreasoning hno hno') (of_decide_eq_true hhas)
      · rw [Blocks.foldl_next_thinking, ← hthinking]
      · rw [Blocks.foldl_next_text, ← htext]
      · rw [Blocks.foldl_next_text, Bool.or_eq_false_iff]
        exact fun hno => content_eq_nil hdiffs (hcontent hno.1) hno.2
      · rw [Blocks.foldl_next_text, Blocks.foldl_next_thinking, Bool.or_eq_false_iff,
          Bool.or_eq_false_iff]
        intro hno hno'
        by_contra hne
        obtain ⟨diff, hdiff, hdelta⟩ :=
          reasoning_first hdiffs (hcontent hno.1) (hreasoning hno.1 hno'.1) hne
        exact any_eq_false.mp hno'.2 diff (mem_of_mem_head? hdiff) (decide_eq_true hdelta)

theorem ChatSlot.sendPartialResponses_cons {slot slot' : ChatSlot} {n : ℤ} {msg : Msg}
    {msgs : List (ℤ × Msg)} {rs : List PartialResult}
    (h : slot.sendPartialResponses ((n, msg) :: msgs) = .ok (slot', rs)) :
    ∃ next r rest, slot.sendPartialResponse n msg = .ok (next, r) ∧
      next.sendPartialResponses msgs = .ok (slot', rest) ∧ rs = r :: rest := by
  rw [sendPartialResponses] at h
  cases hfirst : slot.sendPartialResponse n msg with
  | error e =>
    rw [hfirst] at h
    cases h
  | ok r =>
    rw [hfirst] at h
    cases hrest : r.1.sendPartialResponses msgs with
    | error e =>
      dsimp only [bind, Except.bind] at h
      rw [hrest] at h
      cases h
    | ok rest =>
      dsimp only [bind, Except.bind] at h
      rw [hrest] at h
      obtain ⟨rfl, rfl⟩ := Prod.mk.inj (Except.ok.inj h)
      exact ⟨r.1, r.2, rest.2, rfl, hrest, rfl⟩

/-- The final result has the flags that the slot has. -/
theorem ChatSlot.sendFinalResponse_flags {slot : ChatSlot} {stop : StopType} {n : ℤ} {msg : Msg}
    {final : FinalResult} (h : slot.sendFinalResponse stop n msg = .ok final) :
    final.anthropicThinkingBlockStarted = slot.anthropicThinkingBlockStarted ∧
      final.anthropicTextBlockStarted = slot.anthropicTextBlockStarted := by
  rw [sendFinalResponse, updateChatMsg] at h
  split at h
  case isTrue =>
    obtain rfl := Except.ok.inj h
    exact ⟨rfl, rfl⟩
  case isFalse =>
    cases hdiffs : computeDiffs slot.chatMsg msg with
    | error e =>
      rw [hdiffs] at h
      cases h
    | ok diffs =>
      rw [hdiffs] at h
      obtain rfl := Except.ok.inj h
      exact ⟨rfl, rfl⟩

section Runs

variable {slot slot' : ChatSlot} {b : Blocks} {msgs : List (ℤ × Msg)} {rs : List PartialResult}
  {final : FinalResult}

theorem reads_iff_continues (htracks : slot.Tracks b)
    (h : slot.sendPartialResponses msgs = .ok (slot', rs))
    (hthinking : final.anthropicThinkingBlockStarted = slot'.anthropicThinkingBlockStarted)
    (htext : final.anthropicTextBlockStarted = slot'.anthropicTextBlockStarted) :
    b.reader.reads (rs.flatMap PartialResult.toJsonAnthropicPartial ++
      final.toJsonAnthropicStream) = some .stopped ↔ Continues final b rs := by
  induction msgs generalizing slot b rs with
  | nil =>
    obtain ⟨rfl, rfl⟩ := Prod.mk.inj (Except.ok.inj h)
    exact FinalResult.reads_iff (hthinking.trans htracks.thinking) (htext.trans htracks.text)
  | cons m msgs ih =>
    obtain ⟨next, r, rest, hfirst, hrest, rfl⟩ := ChatSlot.sendPartialResponses_cons h
    obtain ⟨⟨hthinks, htexts⟩, hled, hnext⟩ := ChatSlot.sendPartialResponse_tracks htracks hfirst
    rw [flatMap_cons, append_assoc, reads_partial, hthinks, htexts, Continues,
      Blocks.reads_append_iff fun _ => Blocks.reads_partialEvents hled, ← ih hnext hrest]

theorem reads_iff_orderly (htracks : slot.Tracks {})
    (h : slot.sendPartialResponses msgs = .ok (slot', rs))
    (hthinking : final.anthropicThinkingBlockStarted = slot'.anthropicThinkingBlockStarted)
    (htext : final.anthropicTextBlockStarted = slot'.anthropicTextBlockStarted) :
    WellFormed (rs.flatMap PartialResult.toJsonAnthropicPartial ++
      final.toJsonAnthropicStream) ↔ Orderly final rs := by
  induction msgs generalizing slot rs with
  | nil =>
    obtain ⟨rfl, rfl⟩ := Prod.mk.inj (Except.ok.inj h)
    rw [WellFormed, flatMap_nil, nil_append, FinalResult.reads_start]
    exact iff_of_false (fun h => by cases h) id
  | cons m msgs ih =>
    obtain ⟨next, r, rest, hfirst, hrest, rfl⟩ := ChatSlot.sendPartialResponses_cons h
    obtain ⟨⟨hthinks, htexts⟩, hled, hnext⟩ := ChatSlot.sendPartialResponse_tracks htracks hfirst
    rw [WellFormed, flatMap_cons, append_assoc, Orderly]
    split
    case isTrue hn =>
      rw [reads_start_first hn, hthinks, htexts,
        Blocks.reads_append_iff fun _ => Blocks.reads_partialEvents hled,
        ← reads_iff_continues hnext hrest hthinking htext]
    case isFalse hn =>
      rw [reads_start_step hn]
      refine and_congr_right fun hsilent => ih ?_ hrest
      rwa [Blocks.foldl_next_silent hsilent] at hnext

end Runs

/-- The events of a generation can be read if and only if its results are in order. -/
theorem wellFormed_streamed_iff (nPromptTokens : ℤ) (oaicompatCmplId oaicompatModel : Text)
    (g : Generation) (r : List PartialResult × FinalResult)
    (h : g.results { nPromptTokens, oaicompatCmplId, oaicompatModel } = .ok r) :
    WellFormed (streamed r) ↔ Orderly r.2 r.1 := by
  rw [Generation.results] at h
  cases hpartials : ChatSlot.sendPartialResponses
      { nPromptTokens, oaicompatCmplId, oaicompatModel } g.partials with
  | error e =>
    rw [hpartials] at h
    cases h
  | ok p =>
    rw [hpartials] at h
    cases hfinal : p.1.sendFinalResponse g.stop g.nDecoded g.last with
    | error e =>
      dsimp only [bind, Except.bind] at h
      rw [hfinal] at h
      cases h
    | ok final =>
      dsimp only [bind, Except.bind] at h
      rw [hfinal] at h
      obtain rfl := Except.ok.inj h
      obtain ⟨hthinking, htext⟩ := ChatSlot.sendFinalResponse_flags hfinal
      exact reads_iff_orderly ⟨rfl, rfl, fun _ => rfl, fun _ _ => rfl⟩ hpartials hthinking htext

/-- Reasoning, text and a tool call, each in its time. -/
def inTurn : Generation where
  partials := [ (1, { reasoningContent := [104] }),
    (2, { reasoningContent := [104], content := [105] }),
    (3, { reasoningContent := [104], content := [105],
          toolCalls := [{ name := [102], id := [49] }] })]
  stop := .eos
  nDecoded := 3
  last := {
    reasoningContent := [104]
    content := [105]
    toolCalls := [{ name := [102], id := [49] }] }

theorem orderly_inTurn :
    ∃ r, inTurn.results { nPromptTokens := 4, oaicompatCmplId := [99], oaicompatModel := [109] } =
      .ok r ∧ Orderly r.2 r.1 := by
  refine ⟨_, rfl, (wellFormed_streamed_iff 4 [99] [109] inTurn _ rfl).mp ?_⟩
  decide

/-- When the first token is the beginning of a character, the first result is of the second one,
and the message is never started. -/
theorem not_wellFormed :
    ¬∀ (nPromptTokens : ℤ) (oaicompatCmplId oaicompatModel : Text) (g : Generation)
      (r : List PartialResult × FinalResult),
      g.results { nPromptTokens, oaicompatCmplId, oaicompatModel } = .ok r →
        WellFormed (streamed r) :=
  fun h => absurd (h 4 [99] [109]
    { partials := [(2,
    { content := [195, 169] })]
      stop := .eos
      nDecoded := 2
      last := { content := [195, 169] } } _ rfl) (by decide)

end ExpertPin.Chat
