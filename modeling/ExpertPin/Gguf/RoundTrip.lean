import ExpertPin.Gguf.Format
import Mathlib.Data.List.GetD

/-!
# Reading back what was written

A context that was put together by any calls is read back from its file exactly when the alignment
that the file asks for leads to the place where the writer, which always uses the default alignment,
has put the data (`roundTrips_iff`).
-/

namespace ExpertPin.Gguf

open Records
open List

/-! ## Values -/

/-- A string or an array has a size in memory. -/
def Value.Fits : Value → Prop
  | .scalar _ _ => True
  | .str s => s.length < sizeMax
  | .arr t data => data.length < sizeMax / t.size
  | .arrStr data => data.length < sizeMax / strSize ∧ ∀ s ∈ data, s.length < sizeMax
  | .arrArr _ => True

theorem ScalarType.ofCode_code (t : ScalarType) : ofCode t.code = some t := by
  cases t <;> rfl

theorem ScalarType.code_lt (t : ScalarType) : t.code < 256 ^ 4 := by
  cases t <;> decide

theorem reads_check {p : Prop} [Decidable p] (h : p) : Reads (check p) [] () := by
  rw [check, if_pos h]
  exact reads_pure ()

theorem lt_of_lt_sizeMax {n : ℕ} (h : n < sizeMax) : n < 256 ^ 8 := h.trans (by decide)

theorem reads_freadStr {s : Bytes} (h : s.length < sizeMax) : Reads freadStr (bwriteStr s) s :=
  (reads_nat (lt_of_lt_sizeMax h)).bind ((reads_check h.ne).first (reads_take s))

theorem reads_readArr {t : ScalarType} {data : List t.Bits} (h : data.length < sizeMax / t.size) :
    Reads readArr (bytesOf 4 t.code ++ (bytesOf 8 data.length ++
      data.flatMap fun val => bytesOf t.size val.toNat)) (.arr t data) := by
  refine (reads_nat t.code_lt).bind
    ((reads_nat (lt_of_lt_sizeMax (h.trans_le (Nat.div_le_self _ _)))).bind ?_)
  rw [t.ofCode_code]
  have hdata := @reads_list_of_mem _ _ (fun _ => word t.size)
    (fun val : t.Bits => bytesOf t.size val.toNat) id data (fun val _ _ => reads_word val) 0
  rw [map_id] at hdata
  exact (reads_check h).first (hdata.last (reads_pure _))

theorem reads_readArr_str {data : List Bytes} (h : data.length < sizeMax / strSize)
    (hdata : ∀ s ∈ data, s.length < sizeMax) :
    Reads readArr (bytesOf 4 strCode ++ (bytesOf 8 data.length ++ data.flatMap bwriteStr))
      (.arrStr data) := by
  refine (reads_nat (by decide)).bind
    ((reads_nat (lt_of_lt_sizeMax (h.trans_le (Nat.div_le_self _ _)))).bind ?_)
  have hstrs := @reads_list_of_mem _ _ (fun _ => freadStr) bwriteStr id data
    (fun s hs _ => reads_freadStr (hdata s hs)) 0
  rw [map_id] at hstrs
  exact (reads_check ⟨rfl, h⟩).first (hstrs.last (reads_pure _))

/-- A value is read after the code of its type. -/
theorem reads_readValue {value : Value} {bytes : Bytes} (hfits : value.Fits)
    (h : writeValue value = some bytes) :
    ∃ code rest, bytes = bytesOf 4 code ++ rest ∧ code < 256 ^ 4 ∧
      Reads (readValue code) rest value := by
  cases value with
  | scalar t val =>
    cases h
    refine ⟨t.code, _, rfl, t.code_lt, ?_⟩
    rw [readValue, t.ofCode_code]
    exact (reads_word val).last (reads_pure _)
  | str s =>
    cases h
    exact ⟨strCode, _, rfl, by decide, (reads_freadStr hfits).last (reads_pure _)⟩
  | arr t data =>
    cases h
    exact ⟨arrCode, _, rfl, by decide, reads_readArr hfits⟩
  | arrStr data =>
    cases h
    exact ⟨arrCode, _, rfl, by decide, reads_readArr_str hfits.1 hfits.2⟩
  | arrArr n => cases h

theorem reads_readKv {p : Kv} {bytes : Bytes} (hkey : p.key.length < sizeMax)
    (hfits : p.value.Fits) (h : writeKv p = some bytes) : Reads readKv bytes p := by
  obtain ⟨value, hvalue, rfl⟩ := Option.map_eq_some_iff.mp h
  obtain ⟨code, rest, rfl, hcode, hread⟩ := reads_readValue hfits hvalue
  exact (reads_freadStr hkey).bind ((reads_nat hcode).bind (hread.last (reads_pure _)))

/-! ## Tensors -/

/-- The info as it is read: without data. -/
def TensorInfo.bare (info : TensorInfo) : TensorInfo := { info with data := [] }

theorem lt_of_sanitized {info : TensorInfo} (h : sanitized info)
    (hlen : info.ne.length ≤ 4) : ∀ d ∈ info.ne, d < 256 ^ 8 := by
  have hle {n m : ℕ} (h : n < int64Max / m) : m ≤ int64Max := by
    by_contra hlt
    rw [Nat.div_eq_of_lt (not_le.mp hlt)] at h
    exact Nat.not_lt_zero _ h
  obtain ⟨_, _, _, h1, h2, h3⟩ := h
  have h0 : info.ne.getD 0 1 ≤ int64Max := (h1.trans_le (Nat.div_le_self _ _)).le
  intro d hd
  obtain ⟨i, hi, rfl⟩ := getElem_of_mem hd
  rw [← getD_eq_getElem info.ne 1 hi]
  have hbound : info.ne.getD i 1 ≤ int64Max := by
    have hcases : i = 0 ∨ i = 1 ∨ i = 2 ∨ i = 3 := by omega
    rcases hcases with rfl | rfl | rfl | rfl
    · exact h0
    · exact hle h1
    · exact hle h2
    · exact hle h3
  exact hbound.trans_lt (by decide)

theorem reads_readInfo {info : TensorInfo} (hname : info.name.length < sizeMax)
    (hoffset : info.offset ≤ sizeMax) (hdims : Dimensioned (info.nDims, info.ne))
    (hsan : sanitized info) : Reads readInfo (writeInfo info) info.bare := by
  obtain ⟨hlen, hpadded⟩ := hdims
  dsimp only at hlen hpadded
  have hfour : info.nDims ≤ 4 := hsan.1
  have htotal : info.ne.length ≤ 4 := by
    rw [hpadded, padDims, length_append, length_replicate, hlen]
    omega
  have hdim : ∀ d ∈ info.ne.take info.nDims, ∀ _ : ℕ, Reads (nat 8) (bytesOf 8 d) d :=
    fun d hd _ => reads_nat (lt_of_sanitized hsan htotal d (mem_of_mem_take hd))
  have hne := @reads_list_of_mem _ _ (fun _ => nat 8) (bytesOf 8) id _ hdim 0
  rw [map_id, hlen] at hne
  have htype : info.type < 256 ^ 4 := hsan.2.1.trans (by decide)
  have hbare : info.bare = { name := info.name, nDims := info.nDims, type := info.type
                             ne := padDims (info.ne.take info.nDims), offset := info.offset } := by
    rw [← hpadded]
    rfl
  refine (reads_freadStr hname).bind ((reads_nat (hfour.trans_lt (by decide))).bind ?_)
  refine (reads_check hfour).first (hne.bind ((reads_nat htype).bind ?_))
  refine (reads_nat (hoffset.trans_lt (by decide))).last ((reads_check ?_).first ?_)
  · rw [← hbare]
    exact hsan
  · rw [hbare]
    exact reads_pure _

/-! ## The head of a file -/

/-- What a file can be made of: all sizes are those of things in memory. -/
structure Fits (ctx : Context) : Prop where
  kv : ctx.kv.length < sizeMax / 2 / kvSize
  infos : ctx.infos.length < sizeMax / 2 / tensorOverhead
  keys : ∀ p ∈ ctx.kv, p.key.length < sizeMax
  values : ∀ p ∈ ctx.kv, p.value.Fits
  names : ∀ info ∈ ctx.infos, info.name.length < sizeMax
  offsets : ∀ info ∈ ctx.infos, info.offset ≤ sizeMax

/-- The shapes of the tensors are those of their types. -/
def Shaped (traits : ℕ → TypeTraits) (ctx : Context) : Prop :=
  ∀ info ∈ ctx.infos, sanitized info ∧ wholeBlocks traits info

/-- The pairs are written one after another. -/
theorem reads_pairs {kv : List Kv} {pairs : List Bytes} (hkeys : ∀ p ∈ kv, p.key.length < sizeMax)
    (hvalues : ∀ p ∈ kv, p.value.Fits) (h : kv.mapM writeKv = some pairs) (i : ℕ) :
    Reads (list (fun _ => readKv) i kv.length) pairs.flatten kv := by
  induction kv generalizing pairs i with
  | nil =>
    cases h
    exact reads_pure []
  | cons p kv ih =>
    rw [mapM_cons] at h
    obtain ⟨bytes, hbytes, h⟩ := Option.bind_eq_some_iff.mp h
    obtain ⟨rest, hrest, h⟩ := Option.bind_eq_some_iff.mp h
    cases h
    obtain ⟨hkey, hkeys⟩ := forall_mem_cons.mp hkeys
    obtain ⟨hvalue, hvalues⟩ := forall_mem_cons.mp hvalues
    rw [flatten_cons]
    exact (reads_readKv hkey hvalue hbytes).bind
      ((ih hkeys hvalues hrest (i + 1)).last (reads_pure _))

variable {traits : ℕ → TypeTraits} {ctx : Context}

theorem reads_readHead {head : Bytes} (hformed : WellFormed ctx) (hfits : Fits ctx)
    (hshaped : Shaped traits ctx) (h : writeHead ctx = some head) :
    Reads readHead head (ggufVersion, ctx.kv, ctx.infos.map TensorInfo.bare) := by
  obtain ⟨pairs, hpairs, rfl⟩ := Option.map_eq_some_iff.mp h
  have hcounts : ggufVersion ≠ 1 ∧ ctx.infos.length < sizeMax / 2 / tensorInfoSize ∧
      ctx.infos.length < sizeMax / 2 / tensorOverhead ∧ ctx.kv.length < sizeMax / 2 / kvSize :=
    ⟨by decide, hfits.infos.trans (by decide), hfits.infos, hfits.kv⟩
  have hinfos := @reads_list_of_mem _ _ (fun _ => readInfo) writeInfo TensorInfo.bare ctx.infos
    (fun info hinfo _ => reads_readInfo (hfits.names info hinfo) (hfits.offsets info hinfo)
      (hformed.dimensioned _ (mem_map_of_mem hinfo)) (hshaped info hinfo).1) 0
  have hnames : ((ctx.infos.map TensorInfo.bare).map fun info => cstr info.name).Nodup := by
    rw [map_map]
    exact hformed.names
  rw [hformed.version]
  refine (reads_take ggufMagic).bind ((reads_check rfl).first ((reads_nat (by decide)).bind ?_))
  refine (reads_nat (hfits.infos.trans (by decide))).bind
    ((reads_nat (hfits.kv.trans (by decide))).bind ((reads_check hcounts).first ?_))
  refine (reads_pairs hfits.keys hfits.values hpairs 0).bind ?_
  exact hinfos.last ((reads_check hnames).first (reads_pure _))

/-! ## Sizes -/

/-- The bytes of a value and its type. -/
def Value.bytes : Value → ℕ
  | .scalar t _ => 4 + t.size
  | .str s => 4 + (8 + s.length)
  | .arr t data => 16 + data.length * t.size
  | .arrStr data => 16 + (data.map fun s => 8 + s.length).sum
  | .arrArr _ => 0

def Kv.bytes (p : Kv) : ℕ := 8 + p.key.length + p.value.bytes

def TensorInfo.bytes (info : TensorInfo) : ℕ := 24 + info.name.length + 8 * info.nDims

/-- The bytes of the head of a file. -/
def headSize (ctx : Context) : ℕ :=
  24 + (ctx.kv.map Kv.bytes).sum + (ctx.infos.map TensorInfo.bytes).sum

theorem length_bwriteStr (s : Bytes) : (bwriteStr s).length = 8 + s.length := by
  rw [bwriteStr, length_append, length_bytesOf]

theorem length_flatMap_const {α : Type} {f : α → Bytes} {n : ℕ} {as : List α}
    (h : ∀ a ∈ as, (f a).length = n) : (as.flatMap f).length = as.length * n := by
  induction as with
  | nil => rw [length_nil, Nat.zero_mul]; rfl
  | cons a as ih =>
    obtain ⟨ha, has⟩ := forall_mem_cons.mp h
    rw [flatMap_cons, length_append, ha, ih has, length_cons, Nat.succ_mul,
      Nat.add_comm]

theorem length_writeValue {value : Value} {bytes : Bytes} (h : writeValue value = some bytes) :
    bytes.length = value.bytes := by
  cases value with
  | scalar t val =>
    cases h
    rw [length_append, length_bytesOf, length_bytesOf, Value.bytes]
  | str s =>
    cases h
    rw [length_append, length_bytesOf, length_bwriteStr, Value.bytes]
  | arr t data =>
    cases h
    rw [length_append, length_append, length_append, length_bytesOf,
      length_bytesOf, length_bytesOf, length_flatMap_const fun _ _ => length_bytesOf _ _,
      Value.bytes]
    omega
  | arrStr data =>
    cases h
    rw [length_append, length_append, length_append, length_bytesOf,
      length_bytesOf, length_bytesOf, length_flatMap, Value.bytes]
    simp only [length_bwriteStr]
    omega
  | arrArr n => cases h

theorem length_writeInfo {info : TensorInfo} (h : (info.ne.take info.nDims).length = info.nDims) :
    (writeInfo info).length = info.bytes := by
  rw [writeInfo, length_append, length_append, length_append, length_append,
    length_bwriteStr, length_bytesOf, length_bytesOf, length_bytesOf,
    length_flatMap_const fun _ _ => length_bytesOf _ _, h, TensorInfo.bytes]
  omega

theorem length_pairs {kv : List Kv} {pairs : List Bytes} (h : kv.mapM writeKv = some pairs) :
    pairs.flatten.length = (kv.map Kv.bytes).sum := by
  induction kv generalizing pairs with
  | nil =>
    cases h
    rfl
  | cons p kv ih =>
    rw [mapM_cons] at h
    obtain ⟨bytes, hbytes, h⟩ := Option.bind_eq_some_iff.mp h
    obtain ⟨rest, hrest, h⟩ := Option.bind_eq_some_iff.mp h
    cases h
    obtain ⟨value, hvalue, rfl⟩ := Option.map_eq_some_iff.mp hbytes
    rw [flatten_cons, length_append, length_append, length_bwriteStr,
      length_writeValue hvalue, ih hrest, map_cons, sum_cons, Kv.bytes]

theorem length_writeHead {head : Bytes} (hformed : WellFormed ctx)
    (h : writeHead ctx = some head) : head.length = headSize ctx := by
  obtain ⟨pairs, hpairs, rfl⟩ := Option.map_eq_some_iff.mp h
  have hinfos : (ctx.infos.flatMap writeInfo).length = (ctx.infos.map TensorInfo.bytes).sum := by
    rw [length_flatMap]
    congr 1
    refine map_congr_left fun info hinfo => length_writeInfo ?_
    exact (hformed.dimensioned _ (mem_map_of_mem hinfo)).1
  have hmagic : ggufMagic.length = 4 := rfl
  rw [length_append, length_append, length_append, length_append,
    length_append, length_bytesOf, length_bytesOf, length_bytesOf, hmagic,
    length_pairs hpairs, hinfos, headSize]
  omega

/-! ## The data -/

/-- Tensors that lie one after another are written, each where its info says. -/
theorem writeData_spec {alignment : ℕ} (halignment : 0 < alignment) {offset : ℕ}
    {infos : List TensorInfo} (h : LaidOut alignment offset infos) :
    ∃ data, writeData alignment offset infos = some data ∧ ∀ info ∈ infos,
      offset ≤ info.offset ∧ (data.drop (info.offset - offset)).take info.size = info.data := by
  induction infos generalizing offset with
  | nil => exact ⟨[], rfl, fun _ h => absurd h not_mem_nil⟩
  | cons first infos ih =>
    obtain ⟨hoffset, hrest⟩ := h
    obtain ⟨rest, hwrite, hdata⟩ := ih hrest
    refine ⟨first.data ++ (padding first.size alignment ++ rest), ?_, ?_⟩
    · rw [writeData, if_pos hoffset.symm, hwrite]
      rfl
    · have hpadded : (first.data ++ padding first.size alignment).length =
          ggmlPad first.size alignment := by
        rw [length_append, padding, length_replicate]
        exact Nat.add_sub_cancel' (Rounding.le_roundUp halignment)
      intro info hinfo
      rcases mem_cons.mp hinfo with rfl | hinfo
      · rw [hoffset, Nat.sub_self, drop_zero]
        exact ⟨le_rfl, take_left⟩
      · obtain ⟨hle, hread⟩ := hdata info hinfo
        refine ⟨(Nat.le_add_right _ _).trans hle, ?_⟩
        have hpast : ggmlPad first.size alignment ≤ info.offset - offset := by omega
        rw [← append_assoc, drop_append, drop_eq_nil_of_le (hpadded ▸ hpast),
          nil_append, hpadded, Nat.sub_sub]
        exact hread

/-! ## The round trip -/

/-- The file is written, and what is read from it is what the context had. -/
structure RoundTrips (traits : ℕ → TypeTraits) (ctx : Context) (file : Bytes) (read : Context) :
    Prop where
  written : writeToFile ctx = some file
  reads : initFromFile traits file = some read
  kv : read.kv = ctx.kv
  infos : read.infos = ctx.infos.map TensorInfo.bare
  data : ∀ info ∈ ctx.infos, (file.drop (read.offset + info.offset)).take info.size = info.data
  metaSize : getMetaSize ctx = some read.offset

/-- The alignment that the pairs give leads to the same offset as the default alignment, and no
array has arrays as elements. -/
def Agrees (ctx : Context) : Prop :=
  (∀ p ∈ ctx.kv, ∀ n, p.value ≠ .arrArr n) ∧ ∃ alignment, alignmentOf ctx.kv = some alignment ∧
    alignment ≠ 0 ∧
    alignOffset (headSize ctx) alignment = ggmlPad (headSize ctx) defaultAlignment

theorem exists_writeValue {value : Value} :
    (∃ bytes, writeValue value = some bytes) ↔ ∀ n, value ≠ .arrArr n := by
  cases value with
  | arrArr n => exact iff_of_false (fun ⟨_, h⟩ => by cases h) fun h => h n rfl
  | _ => exact iff_of_true ⟨_, rfl⟩ fun _ h => by cases h

theorem exists_writeKv {p : Kv} : (∃ bytes, writeKv p = some bytes) ↔ ∀ n, p.value ≠ .arrArr n := by
  rw [← exists_writeValue]
  constructor
  · rintro ⟨bytes, h⟩
    obtain ⟨value, hvalue, _⟩ := Option.map_eq_some_iff.mp h
    exact ⟨value, hvalue⟩
  · rintro ⟨value, hvalue⟩
    exact ⟨_, by rw [writeKv, hvalue]; rfl⟩

theorem exists_pairs {kv : List Kv} :
    (∃ pairs, kv.mapM writeKv = some pairs) ↔ ∀ p ∈ kv, ∀ n, p.value ≠ .arrArr n := by
  induction kv with
  | nil => exact iff_of_true ⟨[], rfl⟩ fun _ h => absurd h not_mem_nil
  | cons p kv ih =>
    rw [forall_mem_cons, ← exists_writeKv, ← ih]
    constructor
    · rintro ⟨pairs, h⟩
      rw [mapM_cons] at h
      obtain ⟨bytes, hbytes, h⟩ := Option.bind_eq_some_iff.mp h
      obtain ⟨rest, hrest, _⟩ := Option.bind_eq_some_iff.mp h
      exact ⟨⟨bytes, hbytes⟩, rest, hrest⟩
    · rintro ⟨⟨bytes, hbytes⟩, rest, hrest⟩
      exact ⟨bytes :: rest, by rw [mapM_cons, hbytes, hrest]; rfl⟩

/-- A head is written unless there is an array of arrays. -/
theorem exists_writeHead :
    (∃ head, writeHead ctx = some head) ↔ ∀ p ∈ ctx.kv, ∀ n, p.value ≠ .arrArr n := by
  rw [← exists_pairs]
  constructor
  · rintro ⟨head, h⟩
    obtain ⟨pairs, hpairs, _⟩ := Option.map_eq_some_iff.mp h
    exact ⟨pairs, hpairs⟩
  · rintro ⟨pairs, hpairs⟩
    exact ⟨_, by rw [writeHead, hpairs]; rfl⟩

theorem length_padded {head : Bytes} : (head ++ padding head.length defaultAlignment).length =
      ggmlPad head.length defaultAlignment := by
  rw [length_append, padding, length_replicate]
  exact Nat.add_sub_cancel' (Rounding.le_roundUp (by decide))

/-- The size of the metadata is that of the head, padded to the default alignment. -/
theorem getMetaSize_eq {head : Bytes} (hformed : WellFormed ctx) (h : writeHead ctx = some head) :
    getMetaSize ctx = some (ggmlPad (headSize ctx) defaultAlignment) := by
  rw [getMetaSize, writeToBuf, h, hformed.alignment]
  dsimp only [Option.bind_eq_bind, Option.bind_some]
  rw [if_pos rfl, Option.map_some, length_padded, length_writeHead hformed h]

/-- What is read from the head and whatever follows it. -/
theorem initFromFile_eq {head rest : Bytes} (hformed : WellFormed ctx) (hfits : Fits ctx)
    (hshaped : Shaped traits ctx) (h : writeHead ctx = some head) {alignment : ℕ}
    (halignment : alignmentOf ctx.kv = some alignment) (hne : alignment ≠ 0) :
    ∃ read, initFromFile traits (head ++ rest) = some read ∧ read.kv = ctx.kv ∧
      read.infos = ctx.infos.map TensorInfo.bare ∧
      read.offset = alignOffset (headSize ctx) alignment := by
  have hblocks : ∀ info ∈ ctx.infos.map TensorInfo.bare, wholeBlocks traits info := by
    intro info hinfo
    obtain ⟨full, hfull, rfl⟩ := mem_map.mp hinfo
    exact (hshaped full hfull).2
  have hoffset : (head ++ rest).length - rest.length = headSize ctx := by
    rw [length_append, Nat.add_sub_cancel, length_writeHead hformed h]
  rw [initFromFile, reads_readHead hformed hfits hshaped h rest]
  dsimp only [Option.bind_eq_bind, Option.bind_some]
  rw [halignment, Option.bind_some, if_neg hne, if_pos hblocks, hoffset]
  exact ⟨_, rfl, rfl, rfl, rfl⟩

/-- Nothing is read if the alignment cannot be. -/
theorem alignment_of_initFromFile {head rest : Bytes} {read : Context} (hformed : WellFormed ctx)
    (hfits : Fits ctx) (hshaped : Shaped traits ctx) (h : writeHead ctx = some head)
    (hread : initFromFile traits (head ++ rest) = some read) :
    ∃ alignment, alignmentOf ctx.kv = some alignment ∧ alignment ≠ 0 := by
  rw [initFromFile, reads_readHead hformed hfits hshaped h rest] at hread
  dsimp only [Option.bind_eq_bind, Option.bind_some] at hread
  obtain ⟨alignment, halignment, hread⟩ := Option.bind_eq_some_iff.mp hread
  refine ⟨alignment, halignment, fun hzero => ?_⟩
  rw [if_pos hzero] at hread
  cases hread

theorem agrees_of_roundTrips {file : Bytes} {read : Context} (hformed : WellFormed ctx)
    (hfits : Fits ctx) (hshaped : Shaped traits ctx) (h : RoundTrips traits ctx file read) :
    Agrees ctx := by
  obtain ⟨head, hhead, hwritten⟩ := Option.bind_eq_some_iff.mp h.written
  obtain ⟨data, _, rfl⟩ : ∃ data, writeData ctx.alignment 0 ctx.infos = some data ∧
      head ++ padding head.length ctx.alignment ++ data = file := Option.map_eq_some_iff.mp hwritten
  have hread := h.reads
  rw [append_assoc] at hread
  obtain ⟨alignment, halignment, hne⟩ :=
    alignment_of_initFromFile hformed hfits hshaped hhead hread
  refine ⟨exists_writeHead.mp ⟨head, hhead⟩, alignment, halignment, hne, ?_⟩
  obtain ⟨read', hread', _, _, hoffset⟩ :=
    @initFromFile_eq traits ctx head _ hformed hfits hshaped hhead alignment halignment hne
  cases hread.symm.trans hread'
  have hsize := h.metaSize
  rw [getMetaSize_eq hformed hhead, hoffset] at hsize
  exact (Option.some.inj hsize).symm

theorem roundTrips_of_agrees (hformed : WellFormed ctx) (hfits : Fits ctx)
    (hshaped : Shaped traits ctx) (h : Agrees ctx) :
    ∃ file read, RoundTrips traits ctx file read := by
  obtain ⟨harrays, alignment, halignment, hne, hagrees⟩ := h
  obtain ⟨head, hhead⟩ := exists_writeHead.mpr harrays
  obtain ⟨data, hdata, hplaces⟩ := writeData_spec (by decide) hformed.laidOut
  have hwritten : writeToFile ctx =
      some (head ++ padding head.length defaultAlignment ++ data) := by
    rw [writeToFile, writeToBuf, hhead, hformed.alignment]
    dsimp only [Option.bind_eq_bind, Option.bind_some]
    rw [if_neg (by decide), hdata]
    rfl
  obtain ⟨read, hread, hkv, hinfos, hoffset⟩ :=
    @initFromFile_eq traits ctx head (padding head.length defaultAlignment ++ data) hformed hfits
      hshaped hhead alignment halignment hne
  rw [← append_assoc] at hread
  rw [hagrees] at hoffset
  refine ⟨_, read, hwritten, hread, hkv, hinfos, fun info hinfo => ?_, ?_⟩
  · have hstart : ggmlPad (headSize ctx) defaultAlignment =
        (head ++ padding head.length defaultAlignment).length := by
      rw [length_padded, length_writeHead hformed hhead]
    have hplace := (hplaces info hinfo).2
    rw [hoffset, hstart, ← drop_drop, drop_left]
    exact hplace
  · rw [getMetaSize_eq hformed hhead, hoffset]

/-- A context that was put together by any calls is read back from its file exactly when the
alignment in it leads to where the data is. -/
theorem roundTrips_iff (hbuilt : Built ctx) (hfits : Fits ctx) (hshaped : Shaped traits ctx) :
    (∃ file read, RoundTrips traits ctx file read) ↔ Agrees ctx :=
  ⟨fun ⟨_, _, h⟩ => agrees_of_roundTrips hbuilt.wellFormed hfits hshaped h,
    roundTrips_of_agrees hbuilt.wellFormed hfits hshaped⟩

/-! ## Two contexts with an alignment of 64 -/

/-- Single numbers, as those of `GGML_TYPE_F32`. -/
def plainTraits : ℕ → TypeTraits := fun _ => { blckSize := 1, typeSize := 4, rowMetaSize := 0 }

/-- A tensor of two numbers. -/
def pair (name : Bytes) : Tensor :=
  { name, ne := [2, 1, 1, 1], type := 0, data := [1, 2, 3, 4, 5, 6, 7, 8] }

/-- The context with that tensor and `general.alignment`. -/
def withAlignment (name : Bytes) : Context :=
  { version := ggufVersion, alignment := defaultAlignment, offset := 0, size := 0
    kv := [{ key := alignmentKey, value := .scalar .uint32 64 }]
    infos := [{ name, nDims := 1, ne := [2, 1, 1, 1], type := 0, offset := 0
                data := [1, 2, 3, 4, 5, 6, 7, 8] }] }

theorem built_withAlignment {name : Bytes} (h : cstr name = name) : Built (withAlignment name) := by
  have hadd : addTensor (initEmpty.set alignmentKey (.scalar .uint32 64)) (pair name) =
      some (withAlignment (cstr name)) := rfl
  rw [h] at hadd
  exact .addTensor (pair name) (.setVal alignmentKey .uint32 64 .initEmpty) hadd

theorem fits_withAlignment {name : Bytes} (h : name.length < sizeMax) :
    Fits (withAlignment name) where
  kv := (by decide : 1 < sizeMax / 2 / kvSize)
  infos := (by decide : 1 < sizeMax / 2 / tensorOverhead)
  keys := forall_mem_singleton.mpr (by decide)
  values := forall_mem_singleton.mpr trivial
  names := forall_mem_singleton.mpr h
  offsets := forall_mem_singleton.mpr (Nat.zero_le _)

theorem shaped_withAlignment (name : Bytes) : Shaped plainTraits (withAlignment name) := by
  have hunnamed : sanitized { name := [], nDims := 1, ne := [2, 1, 1, 1], type := 0, offset := 0 } ∧
      wholeBlocks plainTraits
        { name := [], nDims := 1, ne := [2, 1, 1, 1], type := 0, offset := 0 } := by decide
  exact forall_mem_singleton.mpr hunnamed

/-- The head ends where both alignments lead to the same offset. -/
theorem roundTrips_twelve :
    ∃ file read, RoundTrips plainTraits (withAlignment (List.replicate 12 97)) file read := by
  refine (roundTrips_iff (built_withAlignment rfl) (fits_withAlignment (by decide))
    (shaped_withAlignment _)).mpr ⟨?_, 64, rfl, by decide, by decide⟩
  exact forall_mem_singleton.mpr fun _ h => by cases h

/-- After a shorter head the reader takes the data from past the end of the file. -/
theorem not_roundTrips :
    ∃ traits ctx, Built ctx ∧ Fits ctx ∧ Shaped traits ctx ∧ alignmentOf ctx.kv = some 64 ∧
      ¬∃ file read, RoundTrips traits ctx file read := by
  have hbuilt : Built (withAlignment [97]) := built_withAlignment rfl
  have hfits : Fits (withAlignment [97]) := fits_withAlignment (by decide)
  have hshaped := shaped_withAlignment [97]
  refine ⟨_, _, hbuilt, hfits, hshaped, rfl, ?_⟩
  rintro ⟨file, read, h⟩
  obtain ⟨_, alignment, halignment, _, hagrees⟩ :=
    agrees_of_roundTrips hbuilt.wellFormed hfits hshaped h
  cases halignment
  exact absurd hagrees (by decide)

end ExpertPin.Gguf
