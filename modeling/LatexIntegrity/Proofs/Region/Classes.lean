import LatexIntegrity.Markup.Environment
import LatexIntegrity.Proofs.Region.Splitting
import LatexIntegrity.Proofs.Span.Tiling

/-!
# The class of every byte

A segmentation says of every byte in what region it stands, and whether a shielded region
begins with it.  Unlike a list of regions, the list of these classes is read byte by byte in
plain text, so that two texts can be compared line by line.
-/

namespace LatexIntegrity

structure ByteClass where
  kind : RegionKind
  name : Text
  /-- A shielded region begins with the byte. -/
  opens : Bool
  deriving DecidableEq, Repr

namespace ByteClass

def plain : ByteClass := ⟨.plain, [], false⟩

/-- No region holds both the byte and the one in front of it, unless both are plain. -/
def isFree (byteClass : ByteClass) : Bool := byteClass.kind == .plain || byteClass.opens

def isInEnvironment (p : Text → Bool) (byteClass : ByteClass) : Bool :=
  byteClass.kind == .environment && p byteClass.name

end ByteClass

abbrev ClassedText := List (UInt8 × ByteClass)

namespace ClassedText

def bytes (items : ClassedText) : Text := items.map (·.1)

def isFeed (item : UInt8 × ByteClass) : Bool := item.1 == '\n'

variable {first second items : ClassedText}

@[simp] theorem bytes_cons (item : UInt8 × ByteClass) (rest : ClassedText) :
    bytes (item :: rest) = item.1 :: bytes rest := rfl

@[simp] theorem bytes_append : bytes (first ++ second) = bytes first ++ bytes second :=
  List.map_append

@[simp] theorem length_bytes : items.bytes.length = items.length := List.length_map _

theorem countP_bytes : items.bytes.countP (· == ('\n' : UInt8)) = items.countP isFeed :=
  List.countP_map

end ClassedText

def Region.classed (region : Region) : ClassedText :=
  region.body.mapIdx fun index b => (b, ⟨region.kind, region.name,
    region.kind.isShielded && index == 0⟩)

def classedFrom (context : LeftContext) (text : Text) : ClassedText :=
  (regionsFrom context text).flatMap Region.classed

def classed (text : Text) : ClassedText := classedFrom .initial text

theorem Region.bytes_classed (region : Region) : region.classed.bytes = region.body := by
  apply List.ext_getElem?
  intro index
  rw [ClassedText.bytes, Region.classed, List.getElem?_map, List.getElem?_mapIdx, Option.map_map]
  exact Option.map_id'

theorem Region.length_classed (region : Region) : region.classed.length = region.body.length :=
  List.length_mapIdx

section

variable {context : LeftContext} {text body rest : Text} {kind : RegionKind} {name : Text}

theorem bytes_classedFrom (context : LeftContext) (text : Text) :
    (classedFrom context text).bytes = text := by
  conv_rhs => rw [← flatMap_body_regionsFrom context text]
  rw [classedFrom, ClassedText.bytes, List.map_flatMap]
  exact List.flatMap_congr fun region _ => region.bytes_classed

theorem length_classedFrom (context : LeftContext) (text : Text) :
    (classedFrom context text).length = text.length := by
  conv_rhs => rw [← bytes_classedFrom context text, ClassedText.bytes, List.length_map]

theorem classedFrom_construct (hbody : body ≠ [])
    (h : construct? context (body ++ rest) = some (kind, ⟨body.length, name⟩)) :
    classedFrom context (body ++ rest) =
      Region.classed ⟨kind, name, body⟩ ++ classedFrom (context.pushAll body) rest := by
  rw [classedFrom, regionsFrom_construct hbody h, List.flatMap_cons]
  rfl

theorem Region.classed_plain (body : Text) :
    Region.classed ⟨.plain, [], body⟩ = body.map fun b => (b, .plain) := by
  apply List.ext_getElem?
  intro index
  rw [Region.classed, List.getElem?_mapIdx, List.getElem?_map]
  rfl

theorem classedFrom_plainRun (context : LeftContext) (text : Text) :
    classedFrom context text = (plainRun context text).map (fun b => (b, .plain)) ++
      classedFrom (context.pushAll (plainRun context text))
        (text.drop (plainRun context text).length) := by
  by_cases hrun : plainRun context text = []
  · rw [hrun]
    rfl
  · have hsplit := plainRun_append_drop context text
    have hregions := @regionsFrom_plain context (plainRun context text)
      (text.drop (plainRun context text).length) hrun (by rw [hsplit])
    rw [hsplit] at hregions
    rw [classedFrom, hregions, List.flatMap_cons, Region.classed_plain]
    rfl

theorem classedFrom_plain {b : UInt8} (h : construct? context (b :: rest) = none) :
    classedFrom context (b :: rest) = (b, .plain) :: classedFrom (context.push b) rest := by
  have hrun : plainRun context (b :: rest) = b :: plainRun (context.push b) rest := by
    rw [plainRun, h]
    rfl
  rw [classedFrom_plainRun, classedFrom_plainRun (context.push b), hrun]
  rfl

theorem classedFrom_context {other : LeftContext}
    (hline : ∀ b, text.head? = some b → b = ('\n' : UInt8)) :
    classedFrom other text = classedFrom context text := by
  rw [classedFrom, classedFrom, regionsFrom_context (.inr hline)]
  intro hhead
  exact absurd (hline _ hhead) (by decide)

end

/-! ## Spans -/

def Span.classAt (span : Span) (offset : Nat) : ByteClass :=
  ⟨span.kind, span.name, span.isShielded && offset == span.start⟩

variable {text : Text} {span : Span} {offset : Nat}

theorem getElem?_classed (hspan : span ∈ segment text) (hoffset : span.contains offset = true) :
    (classed text)[offset]? = text[offset]?.map (·, span.classAt offset) := by
  obtain ⟨region, hkind, hname, -, hitems⟩ :=
    Region.exists_getElem?_flatMap hspan (by rwa [Nat.zero_add])
  have hclassed := hitems Region.classed Region.length_classed
  have hbody := hitems (·.body) fun _ => rfl
  rw [flatMap_body_regions] at hbody
  have hstart : (0 + offset - span.start == 0) = (offset == span.start) := by
    rw [Span.contains_iff] at hoffset
    rw [Bool.eq_iff_iff, beq_iff_eq, beq_iff_eq]
    omega
  rw [classed, classedFrom, ← regions, hclassed, hbody, Region.classed, List.getElem?_mapIdx,
    hstart, hkind, hname]
  rfl

theorem any_findAt?_segment {p : Span → Bool} {q : ByteClass → Bool}
    (h : ∀ span : Span, p span = q (span.classAt offset)) :
    (Span.findAt? (segment text) offset).any p = (classed text)[offset]?.any (q ·.2) := by
  cases hfound : Span.findAt? (segment text) offset with
  | some span =>
      obtain ⟨hspan, hoffset⟩ := Span.mem_of_findAt? hfound
      have hfit := ((tiles_segment text).bounds hspan).2.2
      have hlt : offset < text.length := by
        rw [Span.contains_iff] at hoffset
        omega
      rw [getElem?_classed hspan hoffset, List.getElem?_eq_getElem hlt]
      exact h span
  | none =>
      have hout : text.length ≤ offset := by
        by_contra hlt
        obtain ⟨span, hspan, hoffset⟩ :=
          (tiles_segment text).exists_contains (Nat.zero_le offset) (Nat.lt_of_not_le hlt)
        rw [(tiles_segment text).findAt?_eq_some_iff.mpr ⟨hspan, hoffset⟩] at hfound
        cases hfound
      rw [List.getElem?_eq_none (by rwa [classed, length_classedFrom])]
      rfl

end LatexIntegrity
