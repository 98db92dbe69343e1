import ExpertPin.Join.Layout
import ExpertPin.Join.Stream

/-!
# Joined offsets

A row of the output names the bytes of one expert: they lie within its tensor's payload, and
outside of the spans of all other tensors (`joined_exact`).  The headers are not asked how long the
tensors are that are not expert tensors, and one of these may be longer than its span
(`not_outsidePayloads`).
-/

namespace ExpertPin.Join

open List
open Option

/-! ## Rows -/

namespace Row

/-- The end of the bytes that a row names. -/
def stop (row : Row) : ℕ := row.absoluteOffset + row.bytes

/-- The bytes of the row are among those from `lo` up to `hi`. -/
def Within (row : Row) (lo hi : ℕ) : Prop := lo ≤ row.absoluteOffset ∧ row.stop ≤ hi

/-- The bytes of the row are none of those from `lo` up to `hi`. -/
def Outside (row : Row) (lo hi : ℕ) : Prop := row.stop ≤ lo ∨ hi ≤ row.absoluteOffset

instance (row : Row) (lo hi : ℕ) : Decidable (row.Outside lo hi) :=
  inferInstanceAs (Decidable (_ ∨ _))

end Row

/-- What a row says about a tensor of the inventory. -/
structure Names (row : Row) (t : Tensor) : Prop where
  shard : row.shard = t.shard
  expert : row.expert < t.experts
  bytes : row.bytes = t.stride
  offset : ∀ start, t.dataStart = some start →
    row.absoluteOffset = start + t.relativeOffset + row.expert * t.stride

theorem names_of_joinRecord {byName : ByName} {columns written : ℕ} {record : List Text} {row : Row}
    (h : joinRecord byName columns written record = some row) :
    row.record = record ∧ ∃ t, (row.tensor, t) ∈ byName ∧ Names row t := by
  obtain ⟨t, hlookup, h⟩ := bind_eq_some_iff.mp h
  obtain ⟨start, hstart, h⟩ := bind_eq_some_iff.mp h
  obtain ⟨size, _, h⟩ := bind_eq_some_iff.mp h
  dsimp only at h
  split at h
  case isFalse => cases h
  case isTrue hvalid =>
    obtain ⟨_, _, ⟨_, hexpert, _⟩, ⟨hrelative, hbytes⟩, _⟩ := hvalid
    cases h
    refine ⟨rfl, t, mem_of_lookup hlookup, rfl, hexpert, hbytes, fun other hother => ?_⟩
    rw [hstart] at hother
    cases hother
    exact congrArg (start + t.relativeOffset + ·) hrelative

theorem joinRecords_spec {byName : ByName} {columns written : ℕ} {records : List (List Text)}
    {rows : List Row} (h : joinRecords byName columns written records = some rows) :
    rows.map Row.record = records ∧ ∀ row ∈ rows, ∃ t, (row.tensor, t) ∈ byName ∧ Names row t := by
  induction records generalizing written rows with
  | nil =>
    cases h
    exact ⟨rfl, fun row hrow => absurd hrow not_mem_nil⟩
  | cons record records ih =>
    obtain ⟨row, hrow, h⟩ := bind_eq_some_iff.mp h
    obtain ⟨rest, hrest, h⟩ := bind_eq_some_iff.mp h
    cases h
    obtain ⟨hrecord, hnames⟩ := names_of_joinRecord hrow
    obtain ⟨hrecords, hall⟩ := ih hrest
    refine ⟨congrArg₂ cons hrecord hrecords, fun other hother => ?_⟩
    rcases mem_cons.mp hother with rfl | hother
    · exact hnames
    · exact hall other hother

/-- The output has a row for each record and ends with the footer. -/
theorem streamJoin_spec {byName : ByName} {trace : Text} {out : Output}
    (h : streamJoin byName trace = some out) :
    ∃ split, Trace.split trace = some split ∧ out.rows.map Row.record = split.records ∧
      out.footer = split.footer.headD [] ∧
      ∀ row ∈ out.rows, ∃ t, (row.tensor, t) ∈ byName ∧ Names row t := by
  obtain ⟨split, hsplit, h⟩ := bind_eq_some_iff.mp h
  obtain ⟨rows, hrows, h⟩ := bind_eq_some_iff.mp h
  obtain ⟨_, _, h⟩ := bind_eq_some_iff.mp h
  dsimp only at h
  split at h
  case isFalse => cases h
  case isTrue =>
    cases h
    obtain ⟨hrecords, hall⟩ := joinRecords_spec hrows
    exact ⟨split, hsplit, hrecords, rfl, hall⟩

/-! ## The bytes of an expert -/

/-- The bytes of a row lie within the payload of the tensor that it names. -/
theorem Names.within {row : Row} {t : Tensor} {start : ℕ} (h : Names row t)
    (hstart : t.dataStart = some start) :
    row.Within (start + t.relativeOffset) (start + t.relativeOffset + t.stride * t.experts) := by
  rw [Row.Within, Row.stop, h.offset start hstart, h.bytes]
  refine ⟨Nat.le_add_right _ _, ?_⟩
  rw [Nat.add_assoc, ← Nat.succ_mul, Nat.mul_comm t.stride]
  exact Nat.add_le_add_left (Nat.mul_le_mul_right _ h.expert) _

/-- Different experts of a tensor have different bytes. -/
theorem Names.outside {row row' : Row} {t : Tensor} {start : ℕ} (h : Names row t)
    (h' : Names row' t) (hstart : t.dataStart = some start) (hlt : row.expert < row'.expert) :
    row.stop ≤ row'.absoluteOffset := by
  rw [Row.stop, h.offset start hstart, h'.offset start hstart, h.bytes, Nat.add_assoc,
    ← Nat.succ_mul]
  exact Nat.add_le_add_left (Nat.mul_le_mul_right _ hlt) _

/-- What lies within a range that ends before another is outside of the other. -/
theorem Row.Within.outside {row : Row} {lo hi lo' hi' : ℕ} (h : row.Within lo hi)
    (hapart : hi ≤ lo' ∨ hi' ≤ lo) : row.Outside lo' hi' := by
  rcases hapart with hle | hle
  · exact .inl (h.2.trans hle)
  · exact .inr (hle.trans h.1)

theorem Row.Within.mono {row : Row} {lo hi lo' hi' : ℕ} (h : row.Within lo hi) (hlo : lo' ≤ lo)
    (hhi : hi ≤ hi') : row.Within lo' hi' := ⟨hlo.trans h.1, h.2.trans hhi⟩

/-- The bytes that a row names, in the file of one of the shards. -/
structure Slice (s : Shard) (row : Row) : Prop where
  shard : s.name = row.shard
  data : row.Within s.start s.fileSize
  payload : ∃ t stop stride, (t, stop) ∈ s.spans ∧ t.name = row.tensor ∧
    expertStride t.dims t.ggmlType = some stride ∧ row.bytes = stride ∧
    row.expert < t.dims.getD 2 0 ∧
    row.Within (s.start + t.offset) (s.start + t.offset + stride * t.dims.getD 2 0) ∧
    row.Within (s.start + t.offset) (s.start + stop)
  others : ∀ p ∈ s.spans, p.1.name ≠ row.tensor → row.Outside (s.start + p.1.offset) (s.start + p.2)

/-- A row that names a tensor which lies in a shard names a slice of that shard. -/
theorem slice_of_located {shards : List Shard} {row : Row} {t : Tensor} (h : Names row t)
    (hstride : expertStride t.dims t.ggmlType = some t.stride)
    (hlocated : Located shards (row.tensor, t)) :
    ∃ s ∈ shards, t.dataStart = some s.start ∧ Slice s row := by
  obtain ⟨s, hs, hshard, hstart, hdata, _, u, stop, hu, hname, hoffset, hdims, htype, hfits,
    hstop⟩ := hlocated
  have hwithin := h.within hdata
  have hfitsFile : s.start + stop ≤ s.fileSize := by
    have hle := Nat.add_le_add_left hstop s.start
    rwa [Nat.add_sub_cancel' hstart] at hle
  have hspan : row.Within (s.start + u.offset) (s.start + stop) := by
    refine hwithin.mono (congrArg (s.start + ·) hoffset).le ?_
    rw [Nat.add_assoc, ← hoffset]
    exact Nat.add_le_add_left hfits _
  refine ⟨s, hs, hdata, hshard.trans h.shard.symm, ?_, ?_, fun p hp hne => ?_⟩
  · exact hspan.mono (Nat.le_add_right _ _) hfitsFile
  · refine ⟨u, stop, t.stride, hu, hname, by rw [hdims, htype, hstride], h.bytes, ?_, ?_, hspan⟩
    · rw [hdims]
      exact h.expert
    · rw [hdims, hoffset]
      exact hwithin
  · refine hspan.outside ?_
    rcases apart_of_mem_spans hu hp (fun hsame => hne (hsame.symm.trans hname)) with hle | hle
    · exact .inl (Nat.add_le_add_left hle _)
    · exact .inr (Nat.add_le_add_left hle _)

/-- Two rows that name the same expert of the same tensor are alike. -/
def Row.Alike (row row' : Row) : Prop :=
  row.shard = row'.shard ∧ row.absoluteOffset = row'.absoluteOffset ∧ row.bytes = row'.bytes

/-- Two rows name bytes of different files, or different bytes. -/
def Row.Apart (row row' : Row) : Prop :=
  row.shard ≠ row'.shard ∨ row.Outside row'.absoluteOffset row'.stop

/-- What the rows of a trace that has been joined say.  The spans of a shard's tensors begin at
their offsets and end where the next begins, or with the file. -/
theorem joined_exact {inventory : Json} {model : Text} {directory : Directory}
    {loaded byName : ByName} {trace : Text} {out : Output}
    (hload : loadInventory inventory = some (model, loaded))
    (hvalid : validateHeaders inventory directory loaded = some byName)
    (hjoin : streamJoin byName trace = some out) :
    (∃ split, Trace.split trace = some split ∧ out.rows.map Row.record = split.records ∧
      out.footer = split.footer.headD []) ∧
    (∀ row ∈ out.rows, ∃ s ∈ directory.shards, Slice s row) ∧
    ∀ row ∈ out.rows, ∀ row' ∈ out.rows,
      if row.tensor = row'.tensor ∧ row.expert = row'.expert then row.Alike row'
      else row.Apart row' := by
  obtain ⟨hnodup, hstride, hlocated⟩ := located_of_validateHeaders hload hvalid
  obtain ⟨split, hsplit, hrecords, hfooter, hnames⟩ := streamJoin_spec hjoin
  refine ⟨⟨split, hsplit, hrecords, hfooter⟩, fun row hrow => ?_, fun row hrow row' hrow' => ?_⟩
  · obtain ⟨t, ht, hnamesRow⟩ := hnames row hrow
    obtain ⟨s, hs, _, hslice⟩ := slice_of_located hnamesRow (hstride _ ht) (hlocated _ ht)
    exact ⟨s, hs, hslice⟩
  · obtain ⟨t, ht, h⟩ := hnames row hrow
    obtain ⟨t', ht', h'⟩ := hnames row' hrow'
    obtain ⟨s, hs, hdata, hslice⟩ := slice_of_located h (hstride _ ht) (hlocated _ ht)
    obtain ⟨s', hs', hdata', hslice'⟩ := slice_of_located h' (hstride _ ht') (hlocated _ ht')
    by_cases htensor : row.tensor = row'.tensor
    case pos =>
      -- the names of the inventory differ, so this is the same tensor
      obtain rfl : t = t' := by
        exact congrArg Prod.snd (inj_on_of_nodup_map hnodup ht ht' htensor)
      split
      case isTrue hsame =>
        refine ⟨h.shard.trans h'.shard.symm, ?_, h.bytes.trans h'.bytes.symm⟩
        rw [h.offset _ hdata, h'.offset _ hdata, hsame.2]
      case isFalse hdiffer =>
        refine .inr ?_
        rcases Nat.lt_or_gt_of_ne fun hexpert => hdiffer ⟨htensor, hexpert⟩ with hlt | hgt
        · exact .inl (h.outside h' hdata hlt)
        · exact .inr (h'.outside h hdata hgt)
    case neg =>
      rw [if_neg fun hsame => htensor hsame.1]
      by_cases hshard : row.shard = row'.shard
      case neg => exact .inl hshard
      case pos =>
        obtain rfl : s = s' := by
          refine inj_on_of_nodup_map directory.nodup hs hs' ?_
          rw [hslice.shard, hslice'.shard, hshard]
        obtain ⟨u, stop, _, hu, hname, _, _, _, _, hwithin⟩ := hslice'.payload
        have houtside := hslice.others (u, stop) hu fun hsame => htensor (hsame.symm.trans hname)
        refine .inr ?_
        rcases houtside with hle | hle
        · exact .inl (hle.trans hwithin.1)
        · exact .inr (hwithin.2.trans hle)

/-! ## Runs -/

/-- An inventory of one tensor of two experts, in the second half of a shard's data. -/
def oneTensor : Json :=
  .object [("kind".toList, .str "local_gguf_header_inventory".toList),
    ("model_dir".toList, .str "m".toList),
    ("tensors".toList, .array [.object [("name".toList, .str "blk.0.ffn_up_exps.weight".toList),
      ("dims".toList, .array [.int 32, .int 1, .int 2]), ("ggml_type".toList, .int 20),
      ("shard".toList, .str "a.gguf".toList), ("relative_offset".toList, .int 32),
      ("storage_span_bytes".toList, .int 36)]])]

/-- A shard with that tensor, and before it one of the given dimensions that is no expert tensor. -/
def oneShard (dims : List ℕ) : Shard where
  name := "a.gguf".toList
  fileSize := 196
  prefixLength := 120
  alignment := none
  start := 128
  tensors := [⟨"output.weight".toList, dims, 20, 0⟩,
    ⟨"blk.0.ffn_up_exps.weight".toList, [32, 1, 2], 20, 32⟩]

def oneDirectory (dims : List ℕ) : Directory where
  shards := [oneShard dims]
  nodup := List.nodup_singleton _

/-- A trace of one access to the second expert. -/
def oneAccess : Text :=
  ("seq,weight_entry,epoch,ids_rows,tensor,ggml_type,expert,stride,relative_offset,bytes," ++
    "shadow_hit,shadow_bypass\n0,0,0,1,blk.0.ffn_up_exps.weight,20,1,18,18,18,0,0\n" ++
    "# end written=1 dropped=0 error=0\n").toList

/-- That inventory as it is loaded. -/
def oneLoaded : ByName :=
  [("blk.0.ffn_up_exps.weight".toList,
    { dims := [32, 1, 2], ggmlType := 20, shard := "a.gguf".toList, relativeOffset := 32
      storageSpanBytes := 36, stride := 18 })]

def oneLocated : ByName :=
  oneLoaded.map fun p => (p.1, { p.2 with dataStart := some 128, fileSize := some 196 })

def oneRow : Row where
  record := ["0", "0", "0", "1", "blk.0.ffn_up_exps.weight", "20", "1", "18", "18", "18", "0",
    "0"].map String.toList
  shard := "a.gguf".toList
  absoluteOffset := 178

def oneOutput : Output where
  columns := Trace.baseColumns ++ ["shard", "absolute_offset"].map String.toList
  rows := [oneRow]
  footer := "# end written=1 dropped=0 error=0".toList

theorem loadInventory_oneTensor : loadInventory oneTensor = some ("m".toList, oneLoaded) := by
  decide +kernel

theorem streamJoin_oneAccess : streamJoin oneLocated oneAccess = some oneOutput := by
  decide +kernel

/-- Tensors that are in the order of their offsets stay as they are. -/
theorem normalized_eq {s : Shard} (h : s.tensors.Pairwise fun a b => a.offset ≤ b.offset) :
    s.normalized = s.tensors :=
  mergeSort_of_pairwise (h.imp fun hle => decide_eq_true hle)

theorem spansUntil_pair (last : ℕ) (t next : HeaderTensor) :
    spansUntil last [t, next] = [(t, next.offset), (next, last)] := rfl

theorem spans_oneShard (dims : List ℕ) : (oneShard dims).spans =
      [(⟨"output.weight".toList, dims, 20, 0⟩, 32),
        (⟨"blk.0.ffn_up_exps.weight".toList, [32, 1, 2], 20, 32⟩, 68)] := by
  rw [Shard.spans, normalized_eq]
  · exact spansUntil_pair (196 - 128) _ _
  · exact pairwise_cons.mpr ⟨fun t ht => Nat.zero_le _, pairwise_singleton _ _⟩

theorem validateHeaders_oneShard {ne2 : ℕ} (h : ne2 = 1 ∨ ne2 = 3) :
    validateHeaders oneTensor (oneDirectory [32, 1, ne2]) oneLoaded = some oneLocated := by
  have hvisit : visitShard { byName := oneLoaded } (oneShard [32, 1, ne2]) =
      some { byName := oneLocated
             names := ["blk.0.ffn_up_exps.weight".toList, "output.weight".toList]
             experts := ["blk.0.ffn_up_exps.weight".toList] } := by
    rw [visitShard, spans_oneShard]
    rcases h with rfl | rfl
    · decide +kernel
    · decide +kernel
  have hfold : (oneDirectory [32, 1, ne2]).shards.foldlM visitShard { byName := oneLoaded } = _ :=
    (bind_pure _).trans hvisit
  have hseen : (oneDirectory [32, 1, ne2]).shards ≠ [] ∧
      totalMatches oneTensor "shards".toList 1 (oneDirectory [32, 1, ne2]).shards.length ∧
      oneLoaded.all (fun p => p.1 ∈ ["blk.0.ffn_up_exps.weight".toList]) := by
    rcases h with rfl | rfl
    · exact ⟨cons_ne_nil _ _, by decide +kernel⟩
    · exact ⟨cons_ne_nil _ _, by decide +kernel⟩
  rw [validateHeaders, hfold, bind_eq_bind, bind_some]
  exact if_pos hseen

/-- The access to the second expert names its bytes. -/
theorem joined_exact_oneAccess : loadInventory oneTensor = some ("m".toList, oneLoaded) ∧
      validateHeaders oneTensor (oneDirectory [32, 1, 1]) oneLoaded = some oneLocated ∧
      streamJoin oneLocated oneAccess = some oneOutput ∧
      ∀ row ∈ oneOutput.rows, ∃ s ∈ (oneDirectory [32, 1, 1]).shards, Slice s row :=
  ⟨loadInventory_oneTensor, validateHeaders_oneShard (.inl rfl), streamJoin_oneAccess,
    (joined_exact loadInventory_oneTensor (validateHeaders_oneShard (.inl rfl))
      streamJoin_oneAccess).2.1⟩

/-- The bytes of a row are none of those of other tensors, as far as the types tell how many bytes
these have. -/
def OutsidePayloads (s : Shard) (row : Row) : Prop :=
  ∀ t ∈ s.tensors, t.name ≠ row.tensor → ∀ stride, expertStride t.dims t.ggmlType = some stride →
    row.Outside (s.start + t.offset) (s.start + t.offset + stride * t.dims.getD 2 0)

/-- Three rows of 18 bytes do not fit in the 32 bytes before the expert tensor. -/
theorem not_outsidePayloads : loadInventory oneTensor = some ("m".toList, oneLoaded) ∧
      validateHeaders oneTensor (oneDirectory [32, 1, 3]) oneLoaded = some oneLocated ∧
      streamJoin oneLocated oneAccess = some oneOutput ∧
      ∃ row ∈ oneOutput.rows, ∃ s ∈ (oneDirectory [32, 1, 3]).shards,
        s.name = row.shard ∧ ¬OutsidePayloads s row := by
  refine ⟨loadInventory_oneTensor, validateHeaders_oneShard (.inr rfl), streamJoin_oneAccess,
    oneRow, mem_singleton_self _, oneShard [32, 1, 3], mem_singleton_self _, rfl, ?_⟩
  intro h
  have houtside := h ⟨"output.weight".toList, [32, 1, 3], 20, 0⟩ mem_cons_self
    (by decide +kernel) 18 (by decide +kernel)
  revert houtside
  decide +kernel

end ExpertPin.Join

/-!
## Truncated traces

The footer of a trace is its last line, and it ends with a line feed.  So the rows of an accepted
trace are read in the same way when more text follows, which is then data after the footer: no
accepted trace is a proper prefix of another one.
-/

namespace ExpertPin.Join

open Option

/-! ## The last line -/

theorem lastLine_suffix (text : Text) : lastLine text <:+ text := by
  fun_induction lastLine text with
  | case1 => exact List.suffix_refl _
  | case2 text hne rest hrest =>
    have heq := (Csv.takeLine_isPrefix text).eq_of_length_le (List.drop_eq_nil_iff.mp hrest)
    exact ⟨[], heq⟩
  | case3 text hne rest hrest ih => exact ih.trans (List.drop_suffix _ _)

/-! ## Data behind the footer -/

/-- An accepted trace is read up to its end, which is the end of a line. -/
theorem endsLine_of_streamJoin {byName : ByName} {trace : Text} {out : Output}
    (h : streamJoin byName trace = some out) :
    Csv.EndsLine trace ∧ ∃ split, Trace.split trace = some split ∧ split.rest = [] := by
  obtain ⟨split, hsplit, h⟩ := bind_eq_some_iff.mp h
  obtain ⟨rows, _, h⟩ := bind_eq_some_iff.mp h
  obtain ⟨_, _, h⟩ := bind_eq_some_iff.mp h
  dsimp only at h
  split at h
  case isFalse => cases h
  case isTrue hvalid =>
    obtain ⟨hlast, hrest, _⟩ := hvalid
    refine ⟨List.IsSuffix.trans ?_ (lastLine_suffix trace), split, hsplit, hrest⟩
    rcases hlast with hlf | hcrlf
    · rw [hlf]
      exact List.suffix_append _ _
    · rw [hcrlf]
      exact ⟨split.footer.headD [] ++ ['\r'], by simp⟩

/-- The records and the footer are found again, whatever comes behind the trace. -/
theorem split_append {trace : Text} {split : Trace.Split} (htrace : Csv.EndsLine trace)
    (h : Trace.split trace = some split) (more : Text) :
    Trace.split (trace ++ more) = some { split with rest := split.rest ++ more } := by
  rw [Trace.split] at h ⊢
  split at h
  case h_1 columns text hread =>
    split at h
    case isTrue hcolumns =>
      obtain ⟨p, hp, rfl⟩ := map_eq_some_iff.mp h
      obtain ⟨hread', hsuffix⟩ := Csv.nextRow_append htrace hread more
      have hne : text ≠ [] := by
        rintro rfl
        exact some_ne_none _ (hp.symm.trans Csv.rowsUntil_nil)
      have hrows := Csv.rowsUntil_append (htrace.of_suffix hsuffix hne) hp more
      rw [hread']
      dsimp only
      rw [if_pos hcolumns, hrows]
      rfl
    case isFalse => cases h
  case h_2 => cases h

theorem streamJoin_eq_none {byName : ByName} {trace : Text} {split : Trace.Split}
    (h : Trace.split trace = some split) (hrest : split.rest ≠ []) :
    streamJoin byName trace = none := by
  cases hjoin : streamJoin byName trace with
  | none => rfl
  | some out =>
    obtain ⟨_, split', hsplit', hrest'⟩ := endsLine_of_streamJoin hjoin
    rw [h] at hsplit'
    cases hsplit'
    exact absurd hrest' hrest

theorem streamJoin_append {byName : ByName} {trace more : Text} {out : Output}
    (h : streamJoin byName trace = some out) (hmore : more ≠ []) :
    streamJoin byName (trace ++ more) = none := by
  obtain ⟨htrace, split, hsplit, _⟩ := endsLine_of_streamJoin h
  exact streamJoin_eq_none (split_append htrace hsplit more)
    (List.append_ne_nil_of_right_ne_nil _ hmore)

/-- A trace that is accepted is rejected when it is cut anywhere, and when anything follows it. -/
theorem streamJoin_failsClosed {byName : ByName} {trace : Text} {out : Output}
    (h : streamJoin byName trace = some out) :
    (∀ cut, cut <+: trace → cut ≠ trace → streamJoin byName cut = none) ∧
      ∀ more, more ≠ [] → streamJoin byName (trace ++ more) = none := by
  refine ⟨fun cut hcut hne => ?_, fun more hmore => streamJoin_append h hmore⟩
  obtain ⟨more, rfl⟩ := hcut
  cases hjoin : streamJoin byName cut with
  | none => rfl
  | some out' =>
    -- then the whole trace is an accepted one with something behind it
    have hmore : more ≠ [] := by
      rintro rfl
      exact hne (List.append_nil cut).symm
    exact absurd (h.symm.trans (streamJoin_append hjoin hmore)) (some_ne_none _)

/-- Without its last line feed the trace of one access is rejected. -/
theorem streamJoin_failsClosed_oneAccess : streamJoin oneLocated oneAccess = some oneOutput ∧
      streamJoin oneLocated oneAccess.dropLast = none := by
  have hcut : oneAccess.dropLast ≠ oneAccess := by decide +kernel
  exact ⟨streamJoin_oneAccess,
    (streamJoin_failsClosed streamJoin_oneAccess).1 _ (List.dropLast_prefix _) hcut⟩

end ExpertPin.Join
