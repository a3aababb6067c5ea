import LatexIntegrity.Proofs.Sanitize.Known

/-!
# Sanitization keeps shielded regions

The shielded regions of a text are found again, in this order, in the sanitized text.
Two things could get in their way: a deleted character that keeps two of them apart, and
an argument that a brace of a replacement closes behind them.
-/

namespace LatexIntegrity

/-- What sanitization keeps of a shielded region.  The cells of a table may change. -/
def Region.kept (region : Region) : RegionKind × Text × Option Text :=
  (region.kind, region.name, if region.isTable then none else some region.body)

/-- No dollar sign in a plain span stands without a backslash that escapes it. -/
def HasNoStrayDollar (text : Text) : Prop :=
  ∀ place ∈ plainPlaces text,
    place.rest.head? = some ('$' : UInt8) → place.context.escaped = true

/-- No command with open arguments stands in a plain span in front of a shielded region. -/
def ClosesArguments (text : Text) : Prop :=
  ∀ place ∈ plainPlaces text, shieldedFrom place.context place.rest ≠ [] →
    Recognizer.hasOpenArguments place.context place.rest = false

instance (text : Text) : Decidable (HasNoStrayDollar text) :=
  inferInstanceAs (Decidable (∀ place ∈ plainPlaces text, _))

instance (text : Text) : Decidable (ClosesArguments text) :=
  inferInstanceAs (Decidable (∀ place ∈ plainPlaces text, _))

namespace EscapeTables

variable {tables : EscapeTables} {text : Text}

theorem strips (htables : tables.AreKnown) (h : tables.prose.DeletesSafely text) :
    Strips tables.prose .initial text .initial (tables.prose.stripped text) :=
  .of_regionsFrom htables.prose.toIsInert htables.proseKeys .initial text rfl h.joins h.regions

theorem sanitize_eq_output (htables : tables.AreKnown) {normalized : Text}
    (hnormalized : normalizeTypography tables.typography text = normalized)
    (h : tables.prose.DeletesSafely normalized) :
    sanitize tables .full text = tables.proseEscaper.output (tables.prose.stripped normalized) := by
  rw [sanitize_full_eq_output htables.prose.staysInside, hnormalized]
  exact @Strips.outputFrom_eq _ _ _ _ tables.proseEscaper htables.proseKeys (strips htables h)
    none false

theorem isCalm_of_mem_plainPlaces (htables : tables.AreKnown)
    (h : tables.prose.DeletesSafely text) (hdollar : HasNoStrayDollar text)
    (hclosed : ClosesArguments (tables.prose.stripped text)) :
    ∀ place ∈ plainPlacesFrom .initial (tables.prose.stripped text),
      place.IsCalm tables.prose := by
  have hstrips := strips htables h
  rw [HasNoStrayDollar, plainPlaces_eq] at hdollar
  rw [ClosesArguments, plainPlaces_eq] at hclosed
  exact fun place hplace =>
    ⟨hstrips.dollarsAreEscaped htables.prose.toIsInert hdollar place hplace,
      hclosed place hplace,
      hstrips.isDeleted_eq_false htables.prose.staysInside htables.proseKeys place hplace⟩

theorem tracks_output (htables : tables.AreKnown)
    (h : ∀ place ∈ plainPlacesFrom .initial text, place.IsCalm tables.prose) :
    tables.proseEscaper.Tracks .initial text .initial (tables.proseEscaper.output text) :=
  @Escaper.tracks_outputFrom tables.proseEscaper htables.prose
    (proseEscaper_preservesRegions htables.cells) (.start []) text .initial (.start []) h

theorem kept_shielded (region : Region) :
    Region.kept ⟨region.kind, region.name, tables.proseEscaper.shielded region⟩ =
      region.kept := by
  have hsame : Region.isTable ⟨region.kind, region.name, tables.proseEscaper.shielded region⟩ =
      region.isTable := rfl
  rw [Region.kept, Region.kept, hsame]
  cases htable : region.isTable with
  | false => rw [proseEscaper_of_not_table htable]
  | true => rfl

theorem shieldedRegions_sublist (htables : tables.AreKnown)
    (h : tables.prose.DeletesSafely (normalizeTypography tables.typography text))
    (hdollar : HasNoStrayDollar (normalizeTypography tables.typography text))
    (hclosed : ClosesArguments
      (tables.prose.stripped (normalizeTypography tables.typography text))) :
    ((shieldedRegions (normalizeTypography tables.typography text)).map Region.kept).Sublist
      ((shieldedRegions (sanitize tables .full text)).map Region.kept) := by
  have htracks := tracks_output htables (isCalm_of_mem_plainPlaces htables h hdollar hclosed)
  rw [sanitize_eq_output htables rfl h, shieldedRegions_eq, shieldedRegions_eq,
    ← (strips htables h).shieldedFrom_eq htables.prose.staysInside]
  exact htracks.sublist_shieldedFrom Region.kept kept_shielded

end EscapeTables

open EscapeTables (standardTypography standardProse)

/--
With the standard tables, sanitization keeps the shielded regions of a text without stray
dollar signs, unless a deleted space keeps two of them apart or an argument stays open in
front of one.
-/
theorem sanitize_keepsShieldedRegions (text : Text)
    (hdollar : HasNoStrayDollar (normalizeTypography standardTypography text))
    (hdeleted : standardProse.DeletesSafely (normalizeTypography standardTypography text))
    (hclosed : ClosesArguments
      (standardProse.stripped (normalizeTypography standardTypography text))) :
    ((shieldedRegions (normalizeTypography standardTypography text)).map Region.kept).Sublist
      ((shieldedRegions (sanitize .standard .full text)).map Region.kept) :=
  EscapeTables.shieldedRegions_sublist EscapeTables.standard_areKnown hdeleted hdollar hclosed

theorem sanitize_keepsShieldedRegions_mixed :
    ((shieldedRegions (normalizeTypography standardTypography
        "½<b $x$\u200b & \\begin\x7btabular\x7d\x7bc\x7du=v|w\\end\x7btabular\x7d %z")).map
          Region.kept).Sublist
      ((shieldedRegions (sanitize .standard .full
        "½<b $x$\u200b & \\begin\x7btabular\x7d\x7bc\x7du=v|w\\end\x7btabular\x7d %z")).map
          Region.kept) :=
  sanitize_keepsShieldedRegions _ (by decide +kernel) (by decide +kernel) (by decide +kernel)

/-- A deleted space kept two formulas apart. -/
example : HasNoStrayDollar "$x$\u200b$y$" ∧
    ¬((shieldedRegions "$x$\u200b$y$").map Region.kept).Sublist
      ((shieldedRegions (sanitize .standard .full "$x$\u200b$y$")).map Region.kept) := by
  decide +kernel

/-- The braces of a replacement close an argument behind a formula. -/
example : HasNoStrayDollar "\\cite\x7b $x$ |" ∧
    ¬((shieldedRegions "\\cite\x7b $x$ |").map Region.kept).Sublist
      ((shieldedRegions (sanitize .standard .full "\\cite\x7b $x$ |")).map Region.kept) := by
  decide +kernel

end LatexIntegrity
