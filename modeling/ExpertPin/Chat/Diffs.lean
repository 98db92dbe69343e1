import Mathlib.Data.List.Infix

/-!
# Streamed deltas

While a response is generated its text is parsed again and again, and each message is compared
with the one before.  The client only sees the differences, and appends them.

Text that a message takes back is not taken back at the client, and reasoning that begins with
the content streamed before is cut.  Where no step does either, the client has every message
(`rebuilt_iff`).
-/

namespace ExpertPin.Chat

open List

abbrev Text := List UInt8

/-- `common_chat_tool_call` -/
structure ToolCall where
  name : Text := []
  arguments : Text := []
  id : Text := []
deriving DecidableEq, Repr, Inhabited

/-- The fields of `common_chat_msg` that are compared. -/
structure Msg where
  content : Text := []
  toolCalls : List ToolCall := []
  reasoningContent : Text := []
deriving DecidableEq, Repr

/-- `common_chat_msg_diff` -/
structure MsgDiff where
  reasoningContentDelta : Text := []
  contentDelta : Text := []
  toolCallIndex : Option ℕ := none
  toolCallDelta : ToolCall := {}
deriving DecidableEq, Repr

/-- The exceptions of the comparison, with the data of their texts. -/
inductive DiffError
  | notFound (last current : Text)
  | fewerToolCalls (prv new : Msg)
  | toolCallMismatch
deriving DecidableEq, Repr

/-- `string_diff` -/
def stringDiff (last current : Text) : Except DiffError Text :=
  if last = [] then .ok current
  else if ¬last <+: current then
    if current <+: last then .ok [] else .error (.notFound last current)
  else .ok (current.drop last.length)

/-- The delta of the reasoning: text that was streamed as content is not streamed again. -/
def reasoningDelta (prv new : Msg) : Except DiffError Text :=
  if prv.reasoningContent ≠ new.reasoningContent then
    (stringDiff prv.reasoningContent new.reasoningContent).map fun delta =>
      if prv.content ≠ [] ∧ prv.content <+: delta ∧ new.content <+: prv.content then
        delta.drop prv.content.length
      else delta
  else .ok []

def contentDelta (prv new : Msg) : Except DiffError Text :=
  if prv.content ≠ new.content then stringDiff prv.content new.content else .ok []

/-- The delta of the last tool call there was. -/
def toolCallDiff (idx : ℕ) (pref newf : ToolCall) : Except DiffError (List MsgDiff) :=
  if pref.name ≠ newf.name ∧ pref.name ≠ [] ∧ newf.name ≠ [] ∧ ¬pref.name <+: newf.name then
    .error .toolCallMismatch
  else
    (stringDiff pref.arguments newf.arguments).map fun argsDiff =>
      let changed := pref.id ≠ newf.id ∨ pref.name ≠ newf.name
      if argsDiff ≠ [] ∨ changed then
        [{ toolCallIndex := some idx
           toolCallDelta := {
             id := if changed then newf.id else []
             name := if changed then newf.name else []
             arguments := argsDiff } }]
      else []

/-- Of the tool calls there were only the last is compared. -/
def lastToolCallDiff (prv new : Msg) : Except DiffError (List MsgDiff) :=
  match prv.toolCalls.getLast?, new.toolCalls[prv.toolCalls.length - 1]? with
  | some pref, some newf => toolCallDiff (prv.toolCalls.length - 1) pref newf
  | _, _ => .ok []

/-- The tool calls from `idx` on, each whole. -/
def newToolCalls (idx : ℕ) : List ToolCall → List MsgDiff
  | [] => []
  | call :: calls =>
    { toolCallIndex := some idx, toolCallDelta := call } :: newToolCalls (idx + 1) calls

/-- `common_chat_msg_diff::compute_diffs` -/
def computeDiffs (prv new : Msg) : Except DiffError (List MsgDiff) := do
  let reasoning ← reasoningDelta prv new
  let content ← contentDelta prv new
  let text :=
    (if reasoning ≠ [] then [{ reasoningContentDelta := reasoning }] else []) ++
    (if content ≠ [] then [{ contentDelta := content }] else [] : List MsgDiff)
  if new.toolCalls.length < prv.toolCalls.length then throw (.fewerToolCalls prv new)
  let last ← lastToolCallDiff prv new
  return text ++ last ++ newToolCalls prv.toolCalls.length (new.toolCalls.drop prv.toolCalls.length)

/-! ## The client -/

/-- Appended are the arguments, and names and ids are replaced by those that are not empty. -/
def ToolCall.append (call delta : ToolCall) : ToolCall where
  name := if delta.name ≠ [] then delta.name else call.name
  arguments := call.arguments ++ delta.arguments
  id := if delta.id ≠ [] then delta.id else call.id

/-- What a client does with a delta. -/
def Msg.append (msg : Msg) (diff : MsgDiff) : Msg where
  content := msg.content ++ diff.contentDelta
  reasoningContent := msg.reasoningContent ++ diff.reasoningContentDelta
  toolCalls := match diff.toolCallIndex with
    | none => msg.toolCalls
    | some idx =>
      (msg.toolCalls ++ List.replicate (idx + 1 - msg.toolCalls.length) default).modify idx
        fun call => call.append diff.toolCallDelta

/-- The client's message once the messages have been streamed. -/
def stream (prv client : Msg) : List Msg → Except DiffError Msg
  | [] => .ok client
  | new :: msgs => do
    let diffs ← computeDiffs prv new
    stream new (diffs.foldl Msg.append client) msgs

/-! ## One step -/

/-- A message that takes nothing back: of the tool calls only the last may change, and its
name and id do not vanish.  Reasoning that is added does not begin with the content, unless
the content grows too. -/
structure ToolCall.Extends (pref newf : ToolCall) : Prop where
  arguments : pref.arguments <+: newf.arguments
  name : newf.name = [] → pref.name = []
  id : newf.id = [] → pref.id = []

structure Msg.Extends (prv new : Msg) : Prop where
  content : prv.content <+: new.content
  reasoning : prv.reasoningContent <+: new.reasoningContent
  fresh : prv.content = [] ∨ prv.content ≠ new.content ∨
    ¬prv.content <+: new.reasoningContent.drop prv.reasoningContent.length
  earlier : new.toolCalls.take (prv.toolCalls.length - 1) =
    prv.toolCalls.take (prv.toolCalls.length - 1)
  last : ∀ pref ∈ prv.toolCalls.getLast?,
    ∀ newf ∈ new.toolCalls[prv.toolCalls.length - 1]?, pref.Extends newf

variable {prv new client : Msg} {last current delta : Text}

theorem stringDiff_append (h : stringDiff last current = .ok delta) :
    last ++ delta = current ↔ last <+: current := by
  rw [stringDiff] at h
  split at h
  case isTrue hempty =>
    obtain rfl := Except.ok.inj h
    rw [hempty]
    exact iff_of_true rfl nil_prefix
  case isFalse =>
    split at h
    case isTrue hno =>
      refine iff_of_false (fun heq => hno ⟨delta, heq⟩) hno
    case isFalse hpre =>
      obtain ⟨rest, rfl⟩ := not_not.mp hpre
      obtain rfl := Except.ok.inj h
      rw [drop_left]
      exact iff_of_true rfl (prefix_append ..)

/-- A delta that is not empty is all that has been added. -/
theorem stringDiff_of_ne_nil (h : stringDiff last current = .ok delta) (hne : delta ≠ []) :
    last ++ delta = current := by
  apply (stringDiff_append h).mpr
  by_contra hno
  rw [stringDiff] at h
  split at h
  case isTrue hempty => exact hno (hempty ▸ nil_prefix)
  case isFalse =>
    split at h
    case isTrue => exact hne (Except.ok.inj h).symm
    case isFalse => cases h

theorem contentDelta_append (h : contentDelta prv new = .ok delta) :
    prv.content ++ delta = new.content ↔ prv.content <+: new.content := by
  rw [contentDelta] at h
  split at h
  case isTrue => exact stringDiff_append h
  case isFalse heq =>
    obtain rfl := Except.ok.inj h
    rw [append_nil, not_not.mp heq]
    exact iff_of_true rfl (prefix_refl _)

theorem reasoningDelta_append (h : reasoningDelta prv new = .ok delta)
    (hcontent : prv.content <+: new.content) :
    prv.reasoningContent ++ delta = new.reasoningContent ↔
      prv.reasoningContent <+: new.reasoningContent ∧
        (prv.content = [] ∨ prv.content ≠ new.content ∨
          ¬prv.content <+: new.reasoningContent.drop prv.reasoningContent.length) := by
  rw [reasoningDelta] at h
  split at h
  case isFalse heq =>
    obtain rfl := Except.ok.inj h
    rw [append_nil, not_not.mp heq, drop_length, prefix_nil]
    refine iff_of_true rfl ⟨prefix_refl _, ?_⟩
    by_cases hempty : prv.content = []
    · exact .inl hempty
    · exact .inr (.inr hempty)
  case isTrue hne =>
    cases hdiff : stringDiff prv.reasoningContent new.reasoningContent with
    | error e =>
      rw [hdiff] at h
      cases h
    | ok whole =>
      rw [hdiff] at h
      obtain rfl := Except.ok.inj h
      dsimp only
      have hiff := stringDiff_append hdiff
      have hdrop : prv.reasoningContent <+: new.reasoningContent →
          new.reasoningContent.drop prv.reasoningContent.length = whole := by
        intro hpre
        rw [← hiff.mpr hpre, drop_left]
      -- content that does not shrink starts with the new content only where it stays
      have hsame : new.content <+: prv.content ↔ prv.content = new.content :=
        ⟨fun hback => hcontent.eq_of_length_le hback.length_le, fun heq => heq ▸ prefix_refl _⟩
      split
      case isFalse hkeep =>
        rw [hiff]
        refine ⟨fun hpre => ⟨hpre, ?_⟩, And.left⟩
        rw [hdrop hpre]
        by_contra hno
        obtain ⟨hfull, hno⟩ := not_or.mp hno
        obtain ⟨heq, hstarts⟩ := not_or.mp hno
        exact hkeep ⟨hfull, not_not.mp hstarts, hsame.mpr (not_not.mp heq)⟩
      case isTrue hcut =>
        obtain ⟨hfull, hstarts, hback⟩ := hcut
        apply iff_of_false
        · intro heq
          have hwhole : whole ≠ [] := by
            rintro rfl
            exact hfull (prefix_nil.mp hstarts)
          rw [← stringDiff_of_ne_nil hdiff hwhole, append_cancel_left_eq] at heq
          have hlength := congrArg length heq
          rw [length_drop] at hlength
          have hpos := length_pos_of_ne_nil hfull
          have hle := hstarts.length_le
          omega
        · rintro ⟨hpre, hempty | hother | hnot⟩
          · exact hfull hempty
          · exact hother (hsame.mp hback)
          · exact hnot (hdrop hpre ▸ hstarts)

/-! ## The tool calls -/

theorem append_toolCall {msg : Msg} {idx : ℕ} {call : ToolCall}
    (hget : msg.toolCalls[idx]? = some call) (delta : ToolCall) :
    msg.append { toolCallIndex := some idx, toolCallDelta := delta } =
      { msg with toolCalls := msg.toolCalls.set idx (call.append delta) } := by
  obtain ⟨hlt, hsome⟩ := List.getElem?_eq_some_iff.mp hget
  have hroom : idx + 1 - msg.toolCalls.length = 0 := Nat.sub_eq_zero_of_le hlt
  rw [Msg.append]
  dsimp only
  rw [List.append_nil, List.append_nil, hroom, List.replicate_zero, List.append_nil,
    List.modify_eq_set, hget]
  rfl

/-- A name that has changed replaces the old one, unless it is empty. -/
theorem latest_iff (old now : Text) (changed : Prop) [Decidable changed]
    (hne : old ≠ now → changed) :
    (if (if changed then now else []) ≠ [] then (if changed then now else []) else old) = now ↔
      (now = [] → old = []) := by
  by_cases hnow : now = []
  · rw [hnow, ite_self, if_neg (not_not_intro rfl)]
    exact ⟨fun h _ => h, fun h => h rfl⟩
  · refine iff_of_true ?_ fun h => absurd h hnow
    by_cases hchanged : changed
    · rw [if_pos hchanged, if_pos hnow]
    · rw [if_neg hchanged, if_neg (not_not_intro rfl)]
      exact not_not.mp fun h => hchanged (hne h)

variable {diffs : List MsgDiff}

/-- The last tool call there was, once its delta is appended. -/
theorem toolCallDiff_append {idx : ℕ} {pref newf : ToolCall}
    (h : toolCallDiff idx pref newf = .ok diffs) :
    ∃ call : ToolCall, (call = newf ↔ pref.Extends newf) ∧
      ∀ msg : Msg, msg.toolCalls[idx]? = some pref →
        diffs.foldl Msg.append msg = { msg with toolCalls := msg.toolCalls.set idx call } := by
  rw [toolCallDiff] at h
  split at h
  case isTrue => cases h
  case isFalse =>
    cases hdiff : stringDiff pref.arguments newf.arguments with
    | error e =>
      rw [hdiff] at h
      cases h
    | ok argsDiff =>
      rw [hdiff] at h
      have hargs := stringDiff_append hdiff
      obtain rfl := Except.ok.inj h
      dsimp only
      split
      case isFalse hno =>
        obtain ⟨hempty, hid, hname⟩ : argsDiff = [] ∧ pref.id = newf.id ∧
            pref.name = newf.name := by
          simpa only [not_or, not_not, ne_eq] using hno
        refine ⟨pref, ?_, fun msg hget => ?_⟩
        · rw [hempty, List.append_nil] at hargs
          constructor
          · rintro rfl
            exact ⟨List.prefix_refl _, id, id⟩
          · intro hext
            have harguments := hargs.mpr hext.arguments
            cases pref
            cases newf
            dsimp only at hid hname harguments
            rw [hid, hname, harguments]
        · obtain ⟨hlt, hsome⟩ := List.getElem?_eq_some_iff.mp hget
          rw [List.foldl_nil, ← hsome, List.set_getElem_self]
      case isTrue =>
        refine ⟨_, ?_, fun msg hget => by
          rw [List.foldl_cons, List.foldl_nil, append_toolCall hget]⟩
        constructor
        · intro heq
          have harguments := congrArg ToolCall.arguments heq
          have hname := congrArg ToolCall.name heq
          have hid := congrArg ToolCall.id heq
          exact ⟨hargs.mp harguments, (latest_iff _ _ _ Or.inr).mp hname,
            (latest_iff _ _ _ Or.inl).mp hid⟩
        · intro hext
          have harguments := hargs.mpr hext.arguments
          have hname := (latest_iff pref.name newf.name
            (pref.id ≠ newf.id ∨ pref.name ≠ newf.name) Or.inr).mpr hext.name
          have hid := (latest_iff pref.id newf.id
            (pref.id ≠ newf.id ∨ pref.name ≠ newf.name) Or.inl).mpr hext.id
          rw [ToolCall.append, harguments, hname, hid]

/-- New tool calls come whole. -/
theorem newToolCalls_append (calls : List ToolCall) {idx : ℕ} {msg : Msg}
    (hidx : msg.toolCalls.length = idx) :
    (newToolCalls idx calls).foldl Msg.append msg =
      { msg with toolCalls := msg.toolCalls ++ calls } := by
  induction calls generalizing idx msg with
  | nil => rw [newToolCalls, foldl_nil, append_nil]
  | cons call calls ih =>
    have hcall : msg.append { toolCallIndex := some idx, toolCallDelta := call } =
        { msg with toolCalls := msg.toolCalls ++ [call] } := by
      subst hidx
      have hroom : msg.toolCalls.length + 1 - msg.toolCalls.length = 1 :=
        Nat.add_sub_cancel_left ..
      have hself : (default : ToolCall).append call = call := by
        have hname : ∀ text : Text, (if text ≠ [] then text else []) = text := fun text =>
          ite_eq_left_iff.mpr fun h => (not_not.mp h).symm
        show ToolCall.mk (if call.name ≠ [] then call.name else []) ([] ++ call.arguments)
          (if call.id ≠ [] then call.id else []) = call
        rw [hname, hname, nil_append]
      rw [Msg.append]
      dsimp only
      rw [append_nil, append_nil, hroom, replicate_one, modify_eq_set,
        getElem?_concat_length, set_append_right _ _ (Nat.le_refl _), Nat.sub_self]
      exact congrArg (fun call => Msg.mk msg.content (msg.toolCalls ++ [call])
        msg.reasoningContent) hself
    rw [newToolCalls, foldl_cons, hcall, ih (by rw [length_append, hidx]; rfl)]
    dsimp only
    rw [append_assoc, singleton_append]

/-- The text is appended. -/
theorem foldl_text (reasoning content : Text) (msg : Msg) :
    ((if reasoning ≠ [] then [({ reasoningContentDelta := reasoning } : MsgDiff)] else []) ++
      (if content ≠ [] then [{ contentDelta := content }] else [] : List MsgDiff)).foldl
        Msg.append msg =
      { msg with
        content := msg.content ++ content
        reasoningContent := msg.reasoningContent ++ reasoning } := by
  rw [foldl_append]
  have hreasoning : (if reasoning ≠ [] then [{ reasoningContentDelta := reasoning }]
      else [] : List MsgDiff).foldl Msg.append msg =
      { msg with reasoningContent := msg.reasoningContent ++ reasoning } := by
    split
    case isTrue =>
      rw [foldl_cons, foldl_nil, Msg.append]
      dsimp only
      rw [append_nil]
    case isFalse hempty => rw [not_not.mp hempty, append_nil, foldl_nil]
  rw [hreasoning]
  split
  case isTrue =>
    rw [foldl_cons, foldl_nil, Msg.append]
    dsimp only
    rw [append_nil]
  case isFalse hempty => rw [not_not.mp hempty, append_nil, foldl_nil]

/-- What a comparison that does not throw consists of. -/
theorem computeDiffs_ok (h : computeDiffs prv new = .ok diffs) :
    ∃ reasoning content last, reasoningDelta prv new = .ok reasoning ∧
      contentDelta prv new = .ok content ∧ prv.toolCalls.length ≤ new.toolCalls.length ∧
      lastToolCallDiff prv new = .ok last ∧
      diffs = (if reasoning ≠ [] then [{ reasoningContentDelta := reasoning }] else []) ++
        (if content ≠ [] then [{ contentDelta := content }] else []) ++ last ++
          newToolCalls prv.toolCalls.length (new.toolCalls.drop prv.toolCalls.length) := by
  rw [computeDiffs] at h
  cases hreasoning : reasoningDelta prv new with
  | error e =>
    rw [hreasoning] at h
    cases h
  | ok reasoning =>
    cases hcontent : contentDelta prv new with
    | error e =>
      rw [hreasoning, hcontent] at h
      cases h
    | ok content =>
      rw [hreasoning, hcontent] at h
      dsimp only [bind, Except.bind] at h
      split at h
      case isTrue => cases h
      case isFalse hlen =>
        cases hlast : lastToolCallDiff prv new with
        | error e =>
          rw [hlast] at h
          cases h
        | ok last =>
          rw [hlast] at h
          obtain rfl := Except.ok.inj h
          exact ⟨reasoning, content, last, rfl, rfl, Nat.not_lt.mp hlen, rfl, rfl⟩

/-- The tool calls there were, once the delta of the last is appended. -/
theorem lastToolCallDiff_append {last : List MsgDiff} (h : lastToolCallDiff prv new = .ok last)
    (hlen : prv.toolCalls.length ≤ new.toolCalls.length) :
    ∃ calls : List ToolCall, calls.length = prv.toolCalls.length ∧
      (calls = new.toolCalls.take prv.toolCalls.length ↔
        new.toolCalls.take (prv.toolCalls.length - 1) =
          prv.toolCalls.take (prv.toolCalls.length - 1) ∧
        ∀ pref ∈ prv.toolCalls.getLast?,
          ∀ newf ∈ new.toolCalls[prv.toolCalls.length - 1]?, pref.Extends newf) ∧
      ∀ msg : Msg, msg.toolCalls = prv.toolCalls →
        last.foldl Msg.append msg = { msg with toolCalls := calls } := by
  rw [lastToolCallDiff] at h
  rcases eq_nil_or_concat' prv.toolCalls with hnil | ⟨init, pref, hinit⟩
  · rw [hnil] at h ⊢
    obtain rfl := Except.ok.inj h
    refine ⟨[], rfl, iff_of_true rfl ⟨rfl, fun _ hpref => by cases hpref⟩, fun msg hmsg => ?_⟩
    rw [foldl_nil, ← hmsg]
  · rw [hinit, length_append, length_singleton] at hlen
    obtain ⟨newf, hnewf⟩ : ∃ newf, new.toolCalls[init.length]? = some newf :=
      ⟨_, getElem?_eq_getElem hlen⟩
    rw [hinit] at h ⊢
    rw [getLast?_concat, length_append, length_singleton, Nat.add_sub_cancel] at h ⊢
    rw [hnewf] at h ⊢
    obtain ⟨call, hcall, happend⟩ := toolCallDiff_append h
    refine ⟨init ++ [call], by rw [length_append, length_singleton], ?_, ?_⟩
    · have htake : new.toolCalls.take (init.length + 1) =
          new.toolCalls.take init.length ++ [newf] := by
        rw [take_add_one, hnewf]
        rfl
      have hlength : init.length = (new.toolCalls.take init.length).length := by
        rw [length_take, Nat.min_eq_left (Nat.le_of_succ_le hlen)]
      rw [htake, take_left']
      constructor
      · intro heq
        obtain ⟨hearlier, hlast⟩ := append_inj heq hlength
        refine ⟨hearlier.symm, ?_⟩
        rintro _ ⟨rfl⟩ _ ⟨rfl⟩
        exact hcall.mp (singleton_inj.mp hlast)
      · rintro ⟨hearlier, hlast⟩
        rw [hearlier, hcall.mpr (hlast pref rfl newf rfl)]
      · rfl
    · intro msg hmsg
      have hget : msg.toolCalls[init.length]? = some pref := by
        rw [hmsg, getElem?_concat_length]
      rw [happend msg hget, hmsg, set_append_right _ _ (Nat.le_refl _), Nat.sub_self,
        set_cons_zero]

/-- The step lemma: a client that has the message before has the new one too exactly where
nothing is taken back. -/
theorem computeDiffs_append (h : computeDiffs prv new = .ok diffs) :
    diffs.foldl Msg.append prv = new ↔ prv.Extends new := by
  obtain ⟨reasoning, content, last, hreasoning, hcontent, hlen, hlast, heq⟩ := computeDiffs_ok h
  obtain ⟨calls, hlength, hcalls, happend⟩ := lastToolCallDiff_append hlast hlen
  have hafter : diffs.foldl Msg.append prv = {
      content := prv.content ++ content
      reasoningContent := prv.reasoningContent ++ reasoning
      toolCalls := calls ++ new.toolCalls.drop prv.toolCalls.length } := by
    rw [heq, foldl_append, foldl_append, foldl_text, happend { prv with
      content := prv.content ++ content
      reasoningContent := prv.reasoningContent ++ reasoning } rfl]
    exact newToolCalls_append _ hlength
  have hsplit : calls ++ new.toolCalls.drop prv.toolCalls.length = new.toolCalls ↔
      calls = new.toolCalls.take prv.toolCalls.length := by
    constructor
    · intro hall
      rw [← hall, take_left' hlength]
    · intro htake
      rw [htake, take_append_drop]
  rw [hafter]
  constructor
  · intro hnew
    have hpre := (contentDelta_append hcontent).mp (congrArg Msg.content hnew)
    obtain ⟨hgrows, hfresh⟩ := (reasoningDelta_append hreasoning hpre).mp
      (congrArg Msg.reasoningContent hnew)
    obtain ⟨hearlier, hlast⟩ := hcalls.mp (hsplit.mp (congrArg Msg.toolCalls hnew))
    exact ⟨hpre, hgrows, hfresh, hearlier, hlast⟩
  · intro hext
    have h₁ := (contentDelta_append hcontent).mpr hext.content
    have h₂ := (reasoningDelta_append hreasoning hext.content).mpr ⟨hext.reasoning, hext.fresh⟩
    have h₃ := hsplit.mpr (hcalls.mpr ⟨hext.earlier, hext.last⟩)
    rw [h₁, h₂, h₃]

/-! ## Whole sequences -/

/-- After each of the messages the client has it. -/
def Rebuilt (prv : Msg) (msgs : List Msg) : Prop :=
  ∀ k, k ≤ msgs.length → stream prv prv (msgs.take k) = .ok ((msgs.take k).getLast?.getD prv)

variable {msgs : List Msg}

theorem stream_cons
    (h : computeDiffs prv new = .ok diffs) :
    stream prv client (new :: msgs) = stream new (diffs.foldl Msg.append client) msgs := by
  rw [stream, h]
  rfl

theorem stream_cons_ok {result : Msg}
    (h : stream prv client (new :: msgs) = .ok result) :
    ∃ diffs, computeDiffs prv new = .ok diffs := by
  rw [stream] at h
  cases hdiffs : computeDiffs prv new with
  | error e =>
    rw [hdiffs] at h
    cases h
  | ok diffs => exact ⟨diffs, rfl⟩

theorem rebuilt_of_chain {result : Msg} (h : stream prv prv msgs = .ok result)
    (hext : List.IsChain Msg.Extends (prv :: msgs)) : Rebuilt prv msgs := by
  induction msgs generalizing prv result with
  | nil =>
    intro k _
    rw [take_nil]
    rfl
  | cons new msgs ih =>
    obtain ⟨diffs, hdiffs⟩ := stream_cons_ok h
    obtain ⟨hfirst, hrest⟩ := isChain_cons_cons.mp hext
    have hstep := (computeDiffs_append hdiffs).mpr hfirst
    rw [stream_cons hdiffs, hstep] at h
    intro k hk
    cases k with
    | zero => rfl
    | succ k =>
      rw [take_succ_cons, stream_cons hdiffs, hstep, ih h hrest k (Nat.le_of_succ_le_succ hk),
        getLast?_cons, Option.getD_some]

theorem chain_of_rebuilt {result : Msg} (h : stream prv prv msgs = .ok result)
    (hall : Rebuilt prv msgs) : List.IsChain Msg.Extends (prv :: msgs) := by
  induction msgs generalizing prv result with
  | nil => exact .singleton prv
  | cons new msgs ih =>
    obtain ⟨diffs, hdiffs⟩ := stream_cons_ok h
    have hone := hall 1 (Nat.succ_le_succ (Nat.zero_le _))
    rw [take_succ_cons, take_zero, stream_cons hdiffs] at hone
    have hstep : diffs.foldl Msg.append prv = new := Except.ok.inj hone
    rw [stream_cons hdiffs, hstep] at h
    refine isChain_cons_cons.mpr ⟨(computeDiffs_append hdiffs).mp hstep, ih h fun k hk => ?_⟩
    have hnext := hall (k + 1) (Nat.succ_le_succ hk)
    rw [take_succ_cons, stream_cons hdiffs, hstep, getLast?_cons,
      Option.getD_some] at hnext
    exact hnext

/-- **Streaming**: where no comparison throws, the client has each message after it exactly if
no message takes anything back. -/
theorem rebuilt_iff {msgs : List Msg} (h : ∃ result, stream {} {} msgs = .ok result) :
    Rebuilt {} msgs ↔ List.IsChain Msg.Extends ({} :: msgs) := by
  obtain ⟨result, hresult⟩ := h
  exact ⟨chain_of_rebuilt hresult, rebuilt_of_chain hresult⟩

/-- A message that grows. -/
theorem rebuilt_iff_grows : Rebuilt {} [{ content := [97] }, { content := [97, 98] }] ↔
    List.IsChain Msg.Extends [{}, { content := [97] }, { content := [97, 98] }] :=
  rebuilt_iff ⟨_, rfl⟩

/-- A message that takes a byte back: the client keeps it. -/
theorem not_rebuilt : ¬∀ msgs result, stream {} {} msgs = .ok result →
    result = msgs.getLast?.getD {} := by
  intro hall
  have h := hall [{ content := [97, 98] }, { content := [97] }] _ rfl
  exact absurd (congrArg Msg.content h) (by decide)

end ExpertPin.Chat
