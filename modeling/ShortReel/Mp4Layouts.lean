import ShortReel.BigEndian
import Mathlib.Data.List.TakeWhile

/-!
# Layouts of MP4 files

`read_mp4_layout`: the top-level boxes of a file are read one after the other, whatever their bytes are,
until both the index and the media were seen. A file is its bytes.
-/

namespace ShortReel.Mp4Layouts

open BigEndian

structure Mp4Layout where
  majorBrand : Option Bytes
  moovFirst : Bool
  deriving DecidableEq, Repr

def maxTopLevelBoxes : ℕ := 4096

def boxHeaderBytes : ℕ := 8

def largeSizeBytes : ℕ := 8

/-- The ASCII codes of `ftyp`. -/
def ftyp : Bytes := [0x66, 0x74, 0x79, 0x70]

def moov : Bytes := [0x6d, 0x6f, 0x6f, 0x76]

def mdat : Bytes := [0x6d, 0x64, 0x61, 0x74]

/-- `handle.read(count)` behind `handle.seek(offset)`. -/
def readAt (file : Bytes) (offset count : ℕ) : Bytes :=
  (file.drop offset).take count

/-- The end of `_read_box_header`: a box that runs past the end of the file is none. -/
def fitting (file : Bytes) (offset : ℕ) (boxType : Bytes) (size : ℕ) : Option (Bytes × ℕ) :=
  if file.length < offset + size then none else some (boxType, size)

def readBoxHeader (file : Bytes) (offset : ℕ) : Option (Bytes × ℕ) :=
  let header := readAt file offset boxHeaderBytes
  if header.length < boxHeaderBytes then none
  else
    let size := fromBytes (header.take 4)
    let boxType := header.drop 4
    if size = 1 then
      let large := readAt file (offset + boxHeaderBytes) largeSizeBytes
      if large.length < largeSizeBytes then none
      else if fromBytes large < boxHeaderBytes + largeSizeBytes then none
      else fitting file offset boxType (fromBytes large)
    else if size = 0 then fitting file offset boxType (file.length - offset)
    else if size < boxHeaderBytes then none
    else fitting file offset boxType size

def readMajorBrand (file : Bytes) (offset : ℕ) : Option Bytes :=
  let brand := readAt file (offset + boxHeaderBytes) 4
  if brand.length = 4 then some brand else none

structure Scan where
  index : ℕ := 0
  offset : ℕ := 0
  majorBrand : Option Bytes := none
  moovIndex : Option ℕ := none
  mdatIndex : Option ℕ := none
  deriving DecidableEq, Repr

def visit (file : Bytes) (state : Scan) (boxType : Bytes) (size : ℕ) : Scan :=
  if state.index = 0 ∧ boxType = ftyp ∧ boxHeaderBytes + 4 ≤ size then
    { state with majorBrand := readMajorBrand file state.offset }
  else if boxType = moov ∧ state.moovIndex = none then { state with moovIndex := some state.index }
  else if boxType = mdat ∧ state.mdatIndex = none then { state with mdatIndex := some state.index }
  else state

def scan (file : Bytes) : ℕ → Scan → Option Mp4Layout
  | 0, _ => none
  | rounds + 1, state =>
      if file.length ≤ state.offset then none
      else
        match readBoxHeader file state.offset with
        | none => none
        | some (boxType, size) =>
            let next := visit file state boxType size
            match next.moovIndex, next.mdatIndex with
            | some moovIndex, some mdatIndex =>
                some { majorBrand := next.majorBrand, moovFirst := moovIndex < mdatIndex }
            | _, _ => scan file rounds { next with index := next.index + 1, offset := next.offset + size }

def readMp4Layout (file : Bytes) : Option Mp4Layout :=
  scan file maxTopLevelBoxes {}

inductive SizeForm where
  | compact
  | large
  | toEnd
  deriving DecidableEq, Repr

structure TopBox where
  boxType : Bytes
  payload : Bytes
  form : SizeForm
  length_boxType : boxType.length = 4
  compact_lt : form = .compact → 8 + payload.length < 256 ^ 4
  large_lt : form = .large → 16 + payload.length < 256 ^ 8

def TopBox.encode (box : TopBox) : Bytes :=
  match box.form with
  | .compact => toBytes 4 (8 + box.payload.length) ++ (box.boxType ++ box.payload)
  | .large => toBytes 4 1 ++ (box.boxType ++ (toBytes 8 (16 + box.payload.length) ++ box.payload))
  | .toEnd => toBytes 4 0 ++ (box.boxType ++ box.payload)

/-- Bytes that are boxes and a rest; a box without a size has none behind it. -/
inductive Frames : Bytes → List TopBox → Bytes → Prop where
  | nil (rest : Bytes) : Frames rest [] rest
  | cons {file rest : Bytes} {boxes : List TopBox} (box : TopBox) (hend : box.form = .toEnd → file = [])
      (hrest : Frames file boxes rest) : Frames (box.encode ++ file) (box :: boxes) rest

def isType (boxType : Bytes) (box : TopBox) : Bool :=
  box.boxType = boxType

/-- The bytes of `major_brand` in the first box. -/
def brandOf (boxes : List TopBox) : Option Bytes :=
  boxes.head?.bind fun box =>
    if box.boxType = ftyp ∧ 12 ≤ box.encode.length then some ((box.encode.drop 8).take 4) else none

def layoutOf (boxes : List TopBox) : Option Mp4Layout :=
  match boxes.findIdx? (isType moov), boxes.findIdx? (isType mdat) with
  | some moovIndex, some mdatIndex =>
      some { majorBrand := brandOf boxes, moovFirst := moovIndex < mdatIndex }
  | _, _ => none

theorem TopBox.length_encode (box : TopBox) : 8 ≤ box.encode.length := by
  have htype := box.length_boxType
  unfold TopBox.encode
  cases box.form with
  | compact =>
      simp only [List.length_append, length_toBytes, htype]
      omega
  | large =>
      simp only [List.length_append, length_toBytes, htype]
      omega
  | toEnd =>
      simp only [List.length_append, length_toBytes, htype]
      omega

section Header

variable {file tail rest boxType : Bytes} {offset size : ℕ} {box : TopBox}

theorem fitting_eq_some_iff {found : Bytes × ℕ} : fitting file offset boxType size = some found ↔
    offset + size ≤ file.length ∧ found = (boxType, size) := by
  unfold fitting
  split_ifs with hpast
  · simp
    omega
  · simp [eq_comm]
    omega

theorem readBoxHeader_split {field body : Bytes} (hfile : file.drop offset = field ++ (boxType ++ body))
    (hfield : field.length = 4) (htype : boxType.length = 4) : readBoxHeader file offset =
      if fromBytes field = 1 then
        if (body.take 8).length < 8 then none
        else if fromBytes (body.take 8) < 16 then none
        else fitting file offset boxType (fromBytes (body.take 8))
      else if fromBytes field = 0 then fitting file offset boxType (file.length - offset)
      else if fromBytes field < 8 then none
      else fitting file offset boxType (fromBytes field) := by
  have hboth : (field ++ boxType).length = boxHeaderBytes := by
    rw [List.length_append, hfield, htype]
    rfl
  have hheader : readAt file offset boxHeaderBytes = field ++ boxType := by
    rw [readAt, hfile, ← List.append_assoc]
    exact List.take_left' hboth
  have hlarge : readAt file (offset + boxHeaderBytes) largeSizeBytes = body.take 8 := by
    rw [readAt, ← List.drop_drop, hfile, ← List.append_assoc]
    exact congrArg (·.take 8) (List.drop_left' hboth)
  have hlength : ¬ (field ++ boxType).length < boxHeaderBytes := by
    rw [hboth]
    exact Nat.lt_irrefl _
  unfold readBoxHeader
  rw [hheader, hlarge]
  dsimp only
  rw [if_neg hlength, List.take_left' hfield, List.drop_left' hfield]
  rfl

theorem readBoxHeader_encode (hfile : file.drop offset = box.encode ++ rest)
    (hoffset : offset ≤ file.length) (hend : box.form = .toEnd → rest = []) :
    readBoxHeader file offset = some (box.boxType, box.encode.length) := by
  have hlength := congrArg List.length hfile
  rw [List.length_drop, List.length_append] at hlength
  obtain ⟨boxType, payload, form, htype, hcompact, hlarge⟩ := box
  cases form with
  | compact =>
      simp only [TopBox.encode, List.append_assoc] at hfile hlength ⊢
      rw [readBoxHeader_split hfile length_toBytes htype, fromBytes_toBytes (hcompact rfl), if_neg (by omega),
        if_neg (by omega), if_neg (by omega), fitting_eq_some_iff]
      simp only [List.length_append, length_toBytes, htype] at hlength ⊢
      exact ⟨by omega, by rw [← Nat.add_assoc]⟩
  | large =>
      simp only [TopBox.encode, List.append_assoc] at hfile hlength ⊢
      have hsize : (toBytes 8 (16 + payload.length) ++ (payload ++ rest)).take 8 =
          toBytes 8 (16 + payload.length) := List.take_left' length_toBytes
      rw [readBoxHeader_split hfile length_toBytes htype, fromBytes_toBytes (by decide), if_pos rfl, hsize,
        fromBytes_toBytes (hlarge rfl), if_neg (by rw [length_toBytes]; decide), if_neg (by omega),
        fitting_eq_some_iff]
      simp only [List.length_append, length_toBytes, htype] at hlength ⊢
      exact ⟨by omega, by congr 1; omega⟩
  | toEnd =>
      obtain rfl := hend rfl
      simp only [TopBox.encode, List.append_nil] at hfile hlength ⊢
      rw [readBoxHeader_split hfile length_toBytes htype, fromBytes_toBytes (by decide), if_neg (by decide),
        if_pos rfl, fitting_eq_some_iff, hlength]
      simp only [List.length_append, List.length_nil] at hlength ⊢
      exact ⟨by omega, by congr 1⟩

/-- A box of a type and a size stands at the offset, and one that goes to the end is the last one. -/
def BoxAt (file : Bytes) (offset : ℕ) (boxType : Bytes) (size : ℕ) (box : TopBox) : Prop :=
  box.boxType = boxType ∧ box.encode.length = size ∧ offset + size ≤ file.length ∧
    file.drop offset = box.encode ++ file.drop (offset + size) ∧
    (box.form = .toEnd → file.drop (offset + size) = [])

theorem boxAt_of_append (rest : Bytes) (hsize : box.encode.length = size) (hfits : offset + size ≤ file.length)
    (hfile : file.drop offset = box.encode ++ rest) (hend : box.form = .toEnd → rest = []) :
    BoxAt file offset box.boxType size box := by
  have hrest : file.drop (offset + size) = rest := by
    rw [← List.drop_drop, hfile]
    exact List.drop_left' hsize
  unfold BoxAt
  rw [hrest]
  exact ⟨rfl, hsize, hfits, hfile, hend⟩

section Split

variable {field body : Bytes} (hfile : file.drop offset = field ++ (boxType ++ body))
  (hfield : field.length = 4) (htype : boxType.length = 4)
include hfile hfield htype

theorem length_of_split : file.length - offset = 8 + body.length := by
  have hlength := congrArg List.length hfile
  rw [List.length_drop, List.length_append, List.length_append, hfield, htype] at hlength
  omega

theorem exists_boxAt_large (hone : fromBytes field = 1) (hshort : ¬ (body.take 8).length < 8)
    (hsize : fromBytes (body.take 8) = size) (hlarge : 16 ≤ size) (hfits : offset + size ≤ file.length) :
    ∃ box, BoxAt file offset boxType size box := by
  have hlength := length_of_split hfile hfield htype
  have hfieldBytes := toBytes_fromBytes field
  have hsizeBytes := toBytes_fromBytes (body.take 8)
  have hsizeLt := fromBytes_lt (body.take 8)
  have height : (body.take 8).length = 8 := by
    rw [List.length_take] at hshort ⊢
    omega
  rw [hfield, hone] at hfieldBytes
  rw [height, hsize] at hsizeBytes hsizeLt
  have hpayload : ((body.drop 8).take (size - 16)).length = size - 16 := by
    rw [List.length_take] at hshort
    rw [List.length_take, List.length_drop]
    omega
  refine ⟨⟨boxType, (body.drop 8).take (size - 16), .large, htype, fun hform => ?_, fun _ => ?_⟩,
    boxAt_of_append ((body.drop 8).drop (size - 16)) ?_ hfits ?_ fun hform => ?_⟩
  · cases hform
  · rw [hpayload]
    omega
  · simp only [TopBox.encode, List.length_append, length_toBytes, htype, hpayload]
    omega
  · simp only [TopBox.encode, List.append_assoc, hpayload]
    rw [Nat.add_sub_of_le hlarge, hsizeBytes, hfieldBytes, List.take_append_drop, List.take_append_drop]
    exact hfile
  · cases hform

theorem exists_boxAt_toEnd (hzero : fromBytes field = 0) (hoffset : offset ≤ file.length) :
    ∃ box, BoxAt file offset boxType (file.length - offset) box := by
  have hlength := length_of_split hfile hfield htype
  have hfieldBytes := toBytes_fromBytes field
  rw [hfield, hzero] at hfieldBytes
  refine ⟨⟨boxType, body, .toEnd, htype, fun hform => ?_, fun hform => ?_⟩,
    boxAt_of_append [] ?_ (Nat.add_sub_of_le hoffset).le ?_ fun _ => rfl⟩
  · cases hform
  · cases hform
  · simp only [TopBox.encode, List.length_append, length_toBytes, htype]
    omega
  · simp only [TopBox.encode, List.append_nil]
    rw [hfieldBytes]
    exact hfile

theorem exists_boxAt_compact (hsize : 8 ≤ fromBytes field) (hfits : offset + fromBytes field ≤ file.length) :
    ∃ box, BoxAt file offset boxType (fromBytes field) box := by
  have hlength := length_of_split hfile hfield htype
  have hfieldBytes := toBytes_fromBytes field
  have hfieldLt := fromBytes_lt field
  rw [hfield] at hfieldBytes hfieldLt
  have hpayload : (body.take (fromBytes field - 8)).length = fromBytes field - 8 := by
    rw [List.length_take]
    omega
  refine ⟨⟨boxType, body.take (fromBytes field - 8), .compact, htype, fun _ => ?_, fun hform => ?_⟩,
    boxAt_of_append (body.drop (fromBytes field - 8)) ?_ hfits ?_ fun hform => ?_⟩
  · rw [hpayload]
    omega
  · cases hform
  · simp only [TopBox.encode, List.length_append, length_toBytes, htype, hpayload]
    omega
  · simp only [TopBox.encode, List.append_assoc, hpayload]
    rw [Nat.add_sub_of_le hsize, hfieldBytes, List.take_append_drop]
    exact hfile
  · cases hform

end Split

theorem exists_split (h : 8 ≤ (file.drop offset).length) : ∃ field boxType body, file.drop offset =
    field ++ (boxType ++ body) ∧ field.length = 4 ∧ boxType.length = 4 := by
  refine ⟨(file.drop offset).take 4, ((file.drop offset).drop 4).take 4, ((file.drop offset).drop 4).drop 4,
    ?_, ?_, ?_⟩
  · rw [List.take_append_drop, List.take_append_drop]
  · rw [List.length_take]
    omega
  · rw [List.length_take, List.length_drop]
    omega

theorem exists_box_of_readBoxHeader (h : readBoxHeader file offset = some (boxType, size))
    (hoffset : offset ≤ file.length) : ∃ box, BoxAt file offset boxType size box := by
  by_cases hshort : (file.drop offset).length < 8
  · unfold readBoxHeader readAt boxHeaderBytes at h
    rw [if_pos (by rw [List.length_take]; omega)] at h
    cases h
  · obtain ⟨field, boxType', body, hfile, hfield, htype⟩ := exists_split (Nat.le_of_not_lt hshort)
    rw [readBoxHeader_split hfile hfield htype] at h
    split_ifs at h with hone hsizeShort hsmall hzero hunder
    · obtain ⟨hfits, hsame⟩ := fitting_eq_some_iff.mp h
      obtain ⟨rfl, rfl⟩ := Prod.mk.inj hsame
      exact exists_boxAt_large hfile hfield htype hone hsizeShort rfl (Nat.le_of_not_lt hsmall) hfits
    · obtain ⟨-, hsame⟩ := fitting_eq_some_iff.mp h
      obtain ⟨rfl, rfl⟩ := Prod.mk.inj hsame
      exact exists_boxAt_toEnd hfile hfield htype hzero hoffset
    · obtain ⟨hfits, hsame⟩ := fitting_eq_some_iff.mp h
      obtain ⟨rfl, rfl⟩ := Prod.mk.inj hsame
      exact exists_boxAt_compact hfile hfield htype (Nat.le_of_not_lt hunder) hfits

end Header

def encodeAll (boxes : List TopBox) : Bytes :=
  boxes.flatMap TopBox.encode

def stateOf (boxes : List TopBox) : Scan where
  index := boxes.length
  offset := (encodeAll boxes).length
  majorBrand := brandOf boxes
  moovIndex := boxes.findIdx? (isType moov)
  mdatIndex := boxes.findIdx? (isType mdat)

section Loop

variable {file tail rest : Bytes} {front boxes more : List TopBox} {box : TopBox} {layout : Mp4Layout}
  {rounds : ℕ}

theorem layoutOf_eq_some_iff : layoutOf boxes = some layout ↔ ∃ moovIndex mdatIndex,
    boxes.findIdx? (isType moov) = some moovIndex ∧ boxes.findIdx? (isType mdat) = some mdatIndex ∧
      layout = { majorBrand := brandOf boxes, moovFirst := moovIndex < mdatIndex } := by
  unfold layoutOf
  cases boxes.findIdx? (isType moov) with
  | none => simp
  | some moovIndex =>
      cases boxes.findIdx? (isType mdat) with
      | none => simp
      | some mdatIndex => simp [eq_comm]

theorem layoutOf_append (h : layoutOf boxes = some layout) : layoutOf (boxes ++ more) = some layout := by
  obtain ⟨moovIndex, mdatIndex, hmoov, hmdat, rfl⟩ := layoutOf_eq_some_iff.mp h
  have hbrand : brandOf (boxes ++ more) = brandOf boxes := by
    cases boxes with
    | nil => cases hmoov
    | cons first boxes => rfl
  refine layoutOf_eq_some_iff.mpr ⟨moovIndex, mdatIndex, ?_, ?_, by rw [hbrand]⟩
  · rw [List.findIdx?_append, hmoov, Option.some_or]
  · rw [List.findIdx?_append, hmdat, Option.some_or]

theorem findIdx?_concat (p : TopBox → Bool) : (front ++ [box]).findIdx? p =
    if front.findIdx? p = none ∧ p box = true then some front.length else front.findIdx? p := by
  rw [List.findIdx?_append]
  cases front.findIdx? p with
  | some i => rfl
  | none => cases hbox : p box <;> simp [hbox]

theorem readMajorBrand_box (hfile : file.drop (encodeAll front).length = box.encode ++ rest)
    (hlong : 12 ≤ box.encode.length) :
    readMajorBrand file (encodeAll front).length = some ((box.encode.drop 8).take 4) := by
  have hread : readAt file ((encodeAll front).length + boxHeaderBytes) 4 = (box.encode.drop 8).take 4 := by
    have height : 8 ≤ box.encode.length := by omega
    rw [readAt, ← List.drop_drop, hfile, boxHeaderBytes, List.drop_append_of_le_length height,
      List.take_append_of_le_length]
    rw [List.length_drop]
    omega
  unfold readMajorBrand
  rw [hread]
  refine if_pos ?_
  rw [List.length_take, List.length_drop]
  omega

theorem brandOf_concat : brandOf (front ++ [box]) = if front = [] then
    if box.boxType = ftyp ∧ 12 ≤ box.encode.length then some ((box.encode.drop 8).take 4) else none
    else brandOf front := by
  cases front with
  | nil => rfl
  | cons first front => rfl

theorem visit_box (hfile : file.drop (encodeAll front).length = box.encode ++ rest) :
    visit file (stateOf front) box.boxType box.encode.length =
      { stateOf (front ++ [box]) with index := front.length, offset := (encodeAll front).length } := by
  have hmoovMdat : moov ≠ mdat := by decide
  have hmoovFtyp : moov ≠ ftyp := by decide
  have hmdatFtyp : mdat ≠ ftyp := by decide
  unfold visit stateOf
  rw [findIdx?_concat, findIdx?_concat]
  simp only [isType, decide_eq_true_eq, List.length_eq_zero_iff]
  by_cases hbrand : front = [] ∧ box.boxType = ftyp ∧ boxHeaderBytes + 4 ≤ box.encode.length
  · obtain ⟨hempty, htype, hlong⟩ := hbrand
    rw [if_pos ⟨hempty, htype, hlong⟩, if_neg fun h => hmoovFtyp (h.2.symm.trans htype),
      if_neg fun h => hmdatFtyp (h.2.symm.trans htype), brandOf_concat, if_pos hempty, if_pos ⟨htype, hlong⟩,
      readMajorBrand_box hfile hlong]
  · have hkept : brandOf (front ++ [box]) = brandOf front := by
      rw [brandOf_concat]
      split_ifs with hempty hftyp
      · exact absurd ⟨hempty, hftyp⟩ hbrand
      · rw [hempty]
        rfl
      · rfl
    rw [if_neg hbrand, hkept]
    by_cases hmoov : box.boxType = moov
    · simp only [hmoov, hmoovMdat, true_and, and_true, false_and, and_false, if_false]
      split_ifs
      · rfl
      · rfl
    · simp only [hmoov, false_and, and_false, if_false]
      by_cases hmdat : box.boxType = mdat
      · simp only [hmdat, true_and, and_true]
        split_ifs
        · rfl
        · rfl
      · simp only [hmdat, false_and, and_false, if_false]

theorem encodeAll_concat : encodeAll (front ++ [box]) = encodeAll front ++ box.encode := by
  unfold encodeAll
  rw [List.flatMap_append, List.flatMap_singleton]

theorem scan_box (hfile : file.drop (encodeAll front).length = box.encode ++ rest)
    (hoffset : (encodeAll front).length ≤ file.length) (hend : box.form = .toEnd → rest = []) :
    scan file (rounds + 1) (stateOf front) =
      match layoutOf (front ++ [box]) with
      | some layout => some layout
      | none => scan file rounds (stateOf (front ++ [box])) := by
  have hlength := congrArg List.length hfile
  rw [List.length_drop, List.length_append] at hlength
  have hpos := box.length_encode
  have hheader := readBoxHeader_encode hfile hoffset hend
  rw [scan]
  change (if file.length ≤ (encodeAll front).length then none else
    match readBoxHeader file (encodeAll front).length with
    | none => none
    | some (boxType, size) => _) = _
  rw [if_neg (by omega), hheader]
  dsimp only
  rw [visit_box hfile]
  unfold layoutOf
  rw [stateOf, encodeAll_concat, List.length_append, List.length_append, List.length_singleton]
  dsimp only
  cases (front ++ [box]).findIdx? (isType moov) with
  | none => rfl
  | some moovIndex =>
      cases (front ++ [box]).findIdx? (isType mdat) with
      | none => rfl
      | some mdatIndex => rfl

theorem scan_frames (hframes : Frames tail boxes rest) (hfile : file = encodeAll front ++ tail)
    (hnone : layoutOf front = none) (hrounds : boxes.length ≤ rounds) : scan file rounds (stateOf front) =
      match layoutOf (front ++ boxes) with
      | some layout => some layout
      | none => scan file (rounds - boxes.length) (stateOf (front ++ boxes)) := by
  induction hframes generalizing front rounds with
  | nil rest =>
      rw [List.append_nil, hnone]
      rfl
  | @cons tail rest boxes box hend hrest ih =>
      obtain ⟨rounds, rfl⟩ : ∃ fewer, rounds = fewer + 1 := ⟨rounds - 1, by
        rw [List.length_cons] at hrounds
        omega⟩
      have hdrop : file.drop (encodeAll front).length = box.encode ++ tail := by
        rw [hfile]
        exact List.drop_left
      have hoffset : (encodeAll front).length ≤ file.length := by
        rw [hfile, List.length_append]
        exact Nat.le_add_right _ _
      have hcons : front ++ box :: boxes = (front ++ [box]) ++ boxes := List.append_cons front box boxes
      rw [scan_box hdrop hoffset hend, hcons]
      cases hlayout : layoutOf (front ++ [box]) with
      | some layout => rw [layoutOf_append hlayout]
      | none =>
          rw [ih (by rw [hfile, encodeAll_concat, List.append_assoc]) hlayout
            (Nat.le_of_succ_le_succ hrounds),
            List.length_cons, Nat.add_sub_add_right]

theorem scan_of_header_none (h : readBoxHeader file (encodeAll boxes).length = none) :
    scan file rounds (stateOf boxes) = none := by
  cases rounds with
  | zero => rfl
  | succ rounds =>
      rw [scan]
      split_ifs
      · rfl
      · dsimp only [stateOf]
        rw [h]

theorem frames_of_scan (h : scan file rounds (stateOf front) = some layout)
    (hfile : file = encodeAll front ++ tail) : ∃ boxes rest, Frames tail boxes rest ∧
      boxes.length ≤ rounds ∧ layoutOf (front ++ boxes) = some layout := by
  induction rounds generalizing front tail with
  | zero => cases h
  | succ rounds ih =>
      have hdrop : file.drop (encodeAll front).length = tail := by
        rw [hfile]
        exact List.drop_left
      have hoffset : (encodeAll front).length ≤ file.length := by
        rw [hfile, List.length_append]
        exact Nat.le_add_right _ _
      cases hheader : readBoxHeader file (encodeAll front).length with
      | none =>
          rw [scan_of_header_none hheader] at h
          cases h
      | some found =>
          obtain ⟨box, -, -, -, hbox, hend⟩ := exists_box_of_readBoxHeader hheader hoffset
          generalize file.drop ((encodeAll front).length + found.2) = behind at hbox hend
          rw [scan_box hbox hoffset hend] at h
          rw [hdrop] at hbox
          cases hlayout : layoutOf (front ++ [box]) with
          | some reached =>
              rw [hlayout] at h
              cases h
              refine ⟨[box], behind, ?_, Nat.le_add_left _ _, hlayout⟩
              rw [hbox]
              exact Frames.cons box hend (Frames.nil behind)
          | none =>
              rw [hlayout] at h
              obtain ⟨boxes, rest, hframes, hlength, hlayout⟩ :=
                ih h (by rw [hfile, encodeAll_concat, List.append_assoc, hbox])
              refine ⟨box :: boxes, rest, ?_, Nat.succ_le_succ hlength, ?_⟩
              · rw [hbox]
                exact Frames.cons box hend hframes
              · rwa [List.append_cons]

theorem scan_end (h : file.length ≤ (encodeAll boxes).length) : scan file rounds (stateOf boxes) = none := by
  cases rounds with
  | zero => rfl
  | succ rounds => exact if_pos h

theorem Frames.eq (hframes : Frames tail boxes rest) : tail = encodeAll boxes ++ rest := by
  induction hframes with
  | nil rest => rfl
  | cons box hend hrest ih => rw [ih, encodeAll, encodeAll, List.flatMap_cons, List.append_assoc]

theorem readMp4Layout_of_frames (hframes : Frames file boxes []) (hlength : boxes.length ≤ maxTopLevelBoxes) :
    readMp4Layout file = layoutOf boxes := by
  have hscan := @scan_frames file file [] [] boxes maxTopLevelBoxes hframes rfl rfl hlength
  rw [List.nil_append] at hscan
  refine hscan.trans ?_
  cases layoutOf boxes with
  | some layout => rfl
  | none => exact scan_end (by rw [hframes.eq, List.append_nil])

theorem findIdx?_isType {boxType : Bytes} (h : ∃ box ∈ boxes, box.boxType = boxType) :
    boxes.findIdx? (isType boxType) = some (boxes.findIdx (isType boxType)) := by
  rw [List.findIdx?_eq_some_iff_findIdx_eq, and_iff_left rfl, List.findIdx_lt_length]
  simpa [isType] using h

theorem exists_of_findIdx? {boxType : Bytes} {i : ℕ} (h : boxes.findIdx? (isType boxType) = some i) :
    ∃ box ∈ boxes, box.boxType = boxType := by
  obtain ⟨hlt, hbox, -⟩ := List.findIdx?_eq_some_iff_getElem.mp h
  exact ⟨boxes[i], List.getElem_mem hlt, of_decide_eq_true hbox⟩

theorem layoutOf_eq_some (hmoov : ∃ box ∈ boxes, box.boxType = moov)
    (hmdat : ∃ box ∈ boxes, box.boxType = mdat) : layoutOf boxes = some
      { majorBrand := brandOf boxes
        moovFirst := boxes.findIdx (isType moov) < boxes.findIdx (isType mdat) } := by
  unfold layoutOf
  rw [findIdx?_isType hmoov, findIdx?_isType hmdat]

theorem exists_of_layoutOf (h : layoutOf boxes = some layout) :
    (∃ box ∈ boxes, box.boxType = moov) ∧ (∃ box ∈ boxes, box.boxType = mdat) ∧
      layout.moovFirst = decide (boxes.findIdx (isType moov) < boxes.findIdx (isType mdat)) := by
  obtain ⟨moovIndex, mdatIndex, hmoov, hmdat, -⟩ := layoutOf_eq_some_iff.mp h
  have hmoov := exists_of_findIdx? hmoov
  have hmdat := exists_of_findIdx? hmdat
  rw [layoutOf_eq_some hmoov hmdat] at h
  cases h
  exact ⟨hmoov, hmdat, rfl⟩

end Loop

/-- A file of not too many boxes has a layout when it has an index and media, and it says which of them comes
first. Of any other bytes, boxes with an index and media at the beginning alone give a layout. -/
theorem readMp4Layout_spec :
    (∀ file boxes, Frames file boxes [] → boxes.length ≤ maxTopLevelBoxes →
      ((∃ box ∈ boxes, box.boxType = moov) → (∃ box ∈ boxes, box.boxType = mdat) →
        ∃ layout, readMp4Layout file = some layout ∧
          (layout.moovFirst = true ↔ boxes.findIdx (isType moov) < boxes.findIdx (isType mdat))) ∧
      (¬ ((∃ box ∈ boxes, box.boxType = moov) ∧ ∃ box ∈ boxes, box.boxType = mdat) →
        readMp4Layout file = none)) ∧
    ∀ file layout, readMp4Layout file = some layout →
      ∃ boxes rest, Frames file boxes rest ∧ boxes.length ≤ maxTopLevelBoxes ∧
        (∃ box ∈ boxes, box.boxType = moov) ∧ (∃ box ∈ boxes, box.boxType = mdat) ∧
        (layout.moovFirst = true ↔ boxes.findIdx (isType moov) < boxes.findIdx (isType mdat)) := by
  refine ⟨fun file boxes hframes hlength => ⟨fun hmoov hmdat => ?_, fun hmissing => ?_⟩,
    fun file layout h => ?_⟩
  · refine ⟨_, (readMp4Layout_of_frames hframes hlength).trans (layoutOf_eq_some hmoov hmdat), ?_⟩
    exact decide_eq_true_iff
  · rw [readMp4Layout_of_frames hframes hlength]
    cases hlayout : layoutOf boxes with
    | none => rfl
    | some layout =>
        obtain ⟨hmoov, hmdat, -⟩ := exists_of_layoutOf hlayout
        exact absurd ⟨hmoov, hmdat⟩ hmissing
  · obtain ⟨boxes, rest, hframes, hlength, hlayout⟩ :=
    @frames_of_scan file file [] layout maxTopLevelBoxes h rfl
    obtain ⟨hmoov, hmdat, hfirst⟩ := exists_of_layoutOf hlayout
    refine ⟨boxes, rest, hframes, hlength, hmoov, hmdat, ?_⟩
    rw [hfirst]
    exact decide_eq_true_iff

example : readMp4Layout (toBytes 4 8 ++ moov ++ (toBytes 4 0 ++ mdat)) =
    some { majorBrand := none, moovFirst := true } := by
  decide

/-- The media end in front of the end that its size names. -/
example : readMp4Layout (toBytes 4 8 ++ moov ++ (toBytes 4 9 ++ mdat)) = none := by
  decide

end ShortReel.Mp4Layouts
