import LatexIntegrity.Proofs.Edit.Splice
import LatexIntegrity.Proofs.Markup.Groups
import LatexIntegrity.Proofs.Region.FirstMatch
import LatexIntegrity.Proofs.Submission.Excerpts
import LatexIntegrity.Proofs.Submission.Markers
import LatexIntegrity.Proofs.Submission.Phrases
import LatexIntegrity.Proofs.Text.Lines

/-!
# What the messages of a submission check show

The messages show lines, arguments of commands, phrases and links of a text whose comments are
blanked.  Each of these begins and ends next to ASCII bytes or consists of such bytes, and so it
is well-formed if the text is.
-/

namespace LatexIntegrity.Submission

open Utf8 (WellFormed)

variable {text : Text} {offset : Nat}

/-! ## Blanked comments -/

theorem wellFormed_blankComments (h : WellFormed text) : WellFormed (blankComments text) := by
  refine regionsFrom_induction (motive := fun _ rest regions => ∀ before,
    WellFormed (before ++ rest) → WellFormed (before ++ regions.flatMap visibleBody))
    ?_ ?_ ?_ .initial text [] h
  · exact fun _ _ h => h
  · intro context body rest kind name hbody hfound ih before h
    rw [List.flatMap_cons, ← List.append_assoc]
    cases hkind : kind == .comment with
    | false =>
        rw [← List.append_assoc] at h
        simpa [visibleBody, hkind] using ih (before ++ body) h
    | true =>
        obtain rfl := beq_iff_eq.mp hkind
        obtain ⟨hpercent, hfeed⟩ := comment_of_construct? hfound
        have hspaces : WellFormed (List.replicate body.length ' ') :=
          Utf8.wellFormed_of_ascii fun b hb => by
            rw [List.eq_of_mem_replicate hb]
            decide
        have hbefore := h.left fun b hb => hpercent b hb ▸ (by decide)
        rw [← List.append_assoc] at h
        have hbody := h.left fun b hb => hfeed b hb ▸ (by decide)
        exact ih (before ++ List.replicate body.length (' ' : UInt8))
          ((hbefore.append hspaces).append (h.of_append hbody))
  · intro context run rest hrun _ ih before h
    rw [List.flatMap_cons, ← List.append_assoc]
    rw [← List.append_assoc] at h
    exact ih (before ++ run) h

/-! ## Lines -/

theorem wellFormed_lineHolding (h : WellFormed text) (hoffset : offset ≤ text.length) :
    WellFormed (Text.lineHolding text offset) := by
  obtain ⟨hle, ⟨-, hstart⟩, -⟩ := Text.startOfLine_spec hoffset
  obtain ⟨hle', -, -, hstop⟩ := Text.endOfLine_spec hoffset
  have hfeed : ('\n' : UInt8).toNat < 0x80 := by decide
  rw [← List.take_append_drop (Text.endOfLine text offset) text,
    ← text.take_append_slice (hle.trans hle'), List.append_assoc] at h
  exact h.between (fun b hb => hstart b hb ▸ hfeed) fun b hb => hstop b hb ▸ hfeed

/-! ## Arguments -/

theorem exists_of_group? {argument : Text} {length : Nat}
    (h : (Group.braced? 4 argument).or (Group.argument? argument) = some length) :
    ∃ rest : Text, argument =
      ('{' : UInt8) :: (Group.body length argument ++ ('}' : UInt8) :: rest) := by
  obtain ⟨hfits, inner, hgroup⟩ : length ≤ argument.length ∧
      ∃ inner, argument.take length = ('{' : UInt8) :: (inner ++ [('}' : UInt8)]) := by
    rcases Option.or_eq_some_iff.mp h with hbraced | ⟨-, hflat⟩
    · obtain ⟨inner, hinner, -⟩ := Group.isBraced_of_braced? hbraced
      exact ⟨(Group.braced?_isLocal 4).fits hbraced, inner, hinner⟩
    · obtain ⟨inner, hinner, -⟩ := Group.isFlat_of_flat? hflat
      exact ⟨(Group.flat?_isLocal '{' '}').fits hflat, inner, hinner⟩
  have hlength : length = inner.length + 2 := by
    have hlengths := congrArg List.length hgroup
    rw [List.length_take_of_le hfits] at hlengths
    simpa using hlengths
  refine ⟨argument.drop length, ?_⟩
  rw [← List.take_append_drop length argument, hgroup, hlength, Group.body_append]
  simp

theorem exists_of_mandatoryArgument? {behind inner : Text}
    (h : mandatoryArgument? behind = some inner) :
    ∃ before rest : Text, behind = before ++ ('{' : UInt8) :: (inner ++ ('}' : UInt8) :: rest) := by
  have hstart : (if behind.head? = some ('*' : UInt8) then behind.drop 1 else behind).dropWhile
      Ascii.isBlank <:+ behind := by
    refine (List.dropWhile_suffix _).trans ?_
    split
    · exact List.drop_suffix _ _
    · exact List.suffix_rfl
  rw [mandatoryArgument?] at h
  generalize (if behind.head? = some ('*' : UInt8) then behind.drop 1 else behind).dropWhile
    Ascii.isBlank = start at h hstart
  obtain ⟨options, h⟩ : ∃ options,
      ((Group.braced? 4 (start.drop options)).or (Group.argument? (start.drop options))).bind
        (fun length => some (Group.body length (start.drop options))) = some inner := by
    split at h
    · obtain ⟨options, -, h⟩ := Option.bind_eq_some_iff.mp h
      exact ⟨options, h⟩
    · exact ⟨0, h⟩
  obtain ⟨length, hlength, hinner⟩ := Option.bind_eq_some_iff.mp h
  obtain rfl := Option.some.inj hinner
  obtain ⟨rest, hrest⟩ := exists_of_group? hlength
  obtain ⟨before, hbefore⟩ := (List.drop_suffix options start).trans hstart
  exact ⟨before, rest, by rw [← hrest, hbefore]⟩

theorem wellFormed_argumentOf? {word inner : Text} (h : WellFormed text)
    (hfound : argumentOf? text word offset = some inner) : WellFormed inner := by
  obtain ⟨before, rest, hbehind⟩ := exists_of_mandatoryArgument? hfound
  have hbrace : ('{' : UInt8).toNat < 0x80 ∧ ('}' : UInt8).toNat < 0x80 := by decide
  rw [← List.take_append_drop (offset + 1 + word.length) text, hbehind, ← List.append_assoc] at h
  exact (h.cut_behind hbrace.1).2.cut (Utf8.isContinuation_of_ascii hbrace.2) |>.1

/-! ## Messages -/

inductive IsTraceMessage (visible : Text) (offset : Nat) : Text → Prop
  | author {names shown : Text} : argumentOf? visible "author" offset = some names →
      IsExcerpt authorExcerptLength names shown →
        IsTraceMessage visible offset ("author field names the authors: " ++ shown)
  | selfCitation {phrase : Phrase} {length : Nat} {shown : Text} : phrase ∈ selfCitations →
      phraseLength? phrase ((Ascii.lower visible).drop offset) = some length →
        IsExcerpt excerptLength ((visible.drop offset).take length) shown →
          IsTraceMessage visible offset ("possible self-citation: \"" ++ shown ++ "\"")
  /-- A link is shown as it stands, in ASCII bytes without white space. -/
  | link {host : RepositoryHost} {length : Nat} : host ∈ repositoryHosts →
      repositoryLength? host.address ((Ascii.lower visible).drop offset) = some length →
        (∀ b ∈ (visible.drop offset).take length, b.toNat < 0x80 ∧ isGap b = false) →
          IsTraceMessage visible offset
            (host.name ++ " link found: " ++ (visible.drop offset).take length)
  | url {target shown : Text} : argumentOf? visible "url" offset = some target →
      IsExcerpt excerptLength target shown →
        IsTraceMessage visible offset ("non-anonymous URL found: " ++ shown)
  | acknowledgment : IsTraceMessage visible offset
      "acknowledgments section present; remove it for anonymous review"

variable {visible : Text}

theorem wellFormed_todoMarkers : ∀ marker ∈ todoMarkers, WellFormed marker := by
  decide +kernel

theorem ascii_of_host {host : RepositoryHost} (h : host ∈ repositoryHosts) :
    WellFormed host.name ∧ ∀ b ∈ host.address, b.toNat < 0x80 ∧ isGap b = false := by
  have hall : ∀ host ∈ repositoryHosts, WellFormed host.name ∧
      (host.address.all fun b => b.toNat < 0x80 && !isGap b) = true := by decide +kernel
  simpa using hall host h

theorem IsTraceMessage.wellFormed {message : Text} (h : IsTraceMessage visible offset message) :
    WellFormed message := by
  cases h with
  | author _ hshown => exact (Utf8.wellFormed_of_all (by decide)).append hshown.wellFormed
  | selfCitation _ _ hshown =>
      exact ((Utf8.wellFormed_of_all (by decide)).append hshown.wellFormed).append
        (Utf8.wellFormed_of_all (by decide))
  | link hhost _ hlink =>
      exact ((ascii_of_host hhost).1.append (Utf8.wellFormed_of_all (by decide))).append
        (Utf8.wellFormed_of_ascii fun b hb => (hlink b hb).1)
  | url _ hshown => exact (Utf8.wellFormed_of_all (by decide)).append hshown.wellFormed
  | acknowledgment => exact Utf8.wellFormed_of_all (by decide)

def IsTrace (visible : Text) (issue : Issue) : Prop :=
  ∃ offset, issue.offset = some offset ∧ IsTraceMessage visible offset issue.message

theorem argumentOf?_of_mem_commandArguments {word argument : Text}
    (h : (offset, argument) ∈ commandArguments word visible) :
    argumentOf? visible word offset = some argument := by
  obtain ⟨place, -, hplace⟩ := List.mem_filterMap.mp h
  obtain ⟨found, hfound, heq⟩ := Option.map_eq_some_iff.mp hplace
  obtain ⟨rfl, rfl⟩ := Prod.mk.inj heq
  exact hfound

theorem isTrace_authorIssue? (hvisible : WellFormed visible) {issue : Issue}
    (h : authorIssue? visible = some issue) : IsTrace visible issue := by
  obtain ⟨⟨offset, names⟩, hhead, h⟩ := Option.bind_eq_some_iff.mp h
  have hnames := argumentOf?_of_mem_commandArguments (List.mem_of_head? hhead)
  dsimp only at h
  split at h
  · cases h
  · obtain rfl := Option.some.inj h
    exact ⟨offset, rfl,
      .author hnames (isExcerpt_excerpt (wellFormed_argumentOf? hvisible hnames) _)⟩

theorem toNat_lt_of_toLower {b : UInt8} (h : (Ascii.toLower b).toNat < 0x80) : b.toNat < 0x80 := by
  revert b
  apply Ascii.forall_byte
  decide +kernel

theorem ascii_of_selfCitation {phrase : Phrase} (h : phrase ∈ selfCitations) :
    phrase.HasBytes (·.toNat < 0x80) := by
  have hall : ∀ phrase ∈ selfCitations, ∀ slot ∈ phrase, ∀ word ∈ slot,
      (word.all fun b => b.toNat < 0x80) = true := by decide +kernel
  simpa [Phrase.HasBytes] using hall phrase h

theorem isTrace_selfCitationIssue? {phrase : Phrase} (hphrase : phrase ∈ selfCitations)
    {issue : Issue} (h : selfCitationIssue? visible phrase = some issue) :
    IsTrace visible issue := by
  obtain ⟨⟨offset, length⟩, hfound, rfl⟩ := Option.map_eq_some_iff.mp h
  obtain ⟨distance, hoffset, hlength⟩ := phraseLength?_of_findPhrase? hfound
  rw [Nat.zero_add] at hoffset
  subst hoffset
  have hascii : ∀ b ∈ (visible.drop offset).take length, b.toNat < 0x80 :=
    forall_mem_of_lower (fun _ => toNat_lt_of_toLower) (forall_mem_phraseLength?
      (fun _ => toNat_lt_of_isGap) (ascii_of_selfCitation hphrase) hlength)
  exact ⟨offset, rfl, .selfCitation hphrase hlength
    (isExcerpt_excerpt (Utf8.wellFormed_of_ascii hascii) _)⟩

theorem ascii_of_isOwnerByte {b : UInt8} (h : isOwnerByte b = true) :
    b.toNat < 0x80 ∧ isGap b = false := by
  revert b
  apply Ascii.forall_byte
  decide +kernel

theorem ascii_of_toLower {b : UInt8}
    (h : (Ascii.toLower b).toNat < 0x80 ∧ isGap (Ascii.toLower b) = false) :
    b.toNat < 0x80 ∧ isGap b = false := by
  revert b
  apply Ascii.forall_byte
  decide +kernel

theorem isTrace_repositoryIssue? {host : RepositoryHost} (hhost : host ∈ repositoryHosts)
    {issue : Issue} (h : repositoryIssue? visible host = some issue) : IsTrace visible issue := by
  obtain ⟨offset, hoffset, h⟩ := List.exists_of_findSome?_eq_some h
  obtain ⟨length, hlength, rfl⟩ := Option.map_eq_some_iff.mp h
  obtain ⟨distance, hdistance, hstarts⟩ := Text.prefix_of_mem_occurrencesFrom hoffset
  rw [Nat.zero_add] at hdistance
  subst hdistance
  exact ⟨offset, rfl, .link hhost hlength (forall_mem_of_lower (fun _ => ascii_of_toLower)
    (forall_mem_repositoryLength? hlength hstarts (ascii_of_host hhost).2
      (fun _ => ascii_of_isOwnerByte) (by decide)))⟩

theorem isTrace_urlIssue? (hvisible : WellFormed visible) {issue : Issue}
    (h : urlIssue? visible = some issue) : IsTrace visible issue := by
  obtain ⟨⟨offset, target⟩, hfound, rfl⟩ := Option.map_eq_some_iff.mp h
  have htarget := argumentOf?_of_mem_commandArguments (List.mem_of_find?_eq_some hfound)
  exact ⟨offset, rfl, .url htarget (isExcerpt_excerpt (wellFormed_argumentOf? hvisible htarget) _)⟩

theorem isTrace_acknowledgmentIssue? {issue : Issue}
    (h : acknowledgmentIssue? text = some issue) : IsTrace visible issue := by
  obtain ⟨heading, -, rfl⟩ := Option.map_eq_some_iff.mp h
  exact ⟨heading.offset, rfl, .acknowledgment⟩

theorem isTrace_of_mem_anonymityIssues (h : WellFormed text) {issue : Issue}
    (hissue : issue ∈ anonymityIssues text) : IsTrace (blankComments text) issue := by
  have hvisible := wellFormed_blankComments h
  simp only [anonymityIssues, List.mem_append, Option.mem_toList, List.mem_filterMap] at hissue
  obtain (((hauthor | ⟨phrase, hphrase, hcitation⟩) | ⟨host, hhost, hlink⟩) | hurl) |
    hacknowledgment := hissue
  · exact isTrace_authorIssue? hvisible hauthor
  · exact isTrace_selfCitationIssue? hphrase hcitation
  · exact isTrace_repositoryIssue? hhost hlink
  · exact isTrace_urlIssue? hvisible hurl
  · exact isTrace_acknowledgmentIssue? hacknowledgment

theorem IsWholeWordAt.le_length {marker : Text} (h : IsWholeWordAt visible marker offset)
    (hmarker : marker ∈ todoMarkers) : offset ≤ visible.length := by
  by_contra hbehind
  have hspelled := congrArg List.length h.spelled
  have hne := List.length_pos_of_ne_nil (mem_todoMarkers hmarker).1
  simp only [Ascii.lower, List.length_map, Text.slice, List.length_take, List.length_drop]
    at hspelled
  omega

def ShowsLine (visible : Text) (issue : Issue) : Prop :=
  ∃ offset shown, issue.offset = some offset ∧ issue.message = issue.key ++ " marker: " ++ shown ∧
    IsExcerpt excerptLength (Text.lineHolding visible offset) shown

/--
With well-formed text all messages about markers and authors are well-formed.  A message about a
marker shows an excerpt of its line.  One about authors shows an excerpt of their names, of a
phrase or of an address, or else a link as it stands, or nothing of the text.
-/
theorem messages_exact (h : WellFormed text) :
    (∀ issue ∈ markerIssues text,
      WellFormed issue.message ∧ ShowsLine (blankComments text) issue) ∧
    ∀ issue ∈ anonymityIssues text,
      WellFormed issue.message ∧ IsTrace (blankComments text) issue := by
  constructor
  · intro issue hissue
    obtain ⟨⟨offset, marker⟩, hhit, rfl⟩ := List.mem_map.mp hissue
    obtain ⟨hmarker, hword⟩ := mem_markerHits_iff.mp hhit
    have hline : WellFormed (Text.lineHolding (blankComments text) offset) :=
      wellFormed_lineHolding (wellFormed_blankComments h) (hword.le_length hmarker)
    have hshown := isExcerpt_excerpt hline excerptLength
    exact ⟨((wellFormed_todoMarkers marker hmarker).append
      (Utf8.wellFormed_of_all (by decide))).append hshown.wellFormed, offset, _, rfl, rfl, hshown⟩
  · intro issue hissue
    obtain ⟨offset, hoffset, hmessage⟩ := isTrace_of_mem_anonymityIssues h hissue
    exact ⟨hmessage.wellFormed, offset, hoffset, hmessage⟩

/-- The bound for names falls into the umlaut, and so the excerpt ends in front of it. -/
theorem messages_exact_umlaut :
    let text : Text :=
      "\\author\x7bAnna Schmidt,\n  Berta Braun, Clara Weiss and Eva Gr\u00fcn\x7d % TODO\nTODO"
    let author := anonymityIssue ("author field names the authors: " ++
      "Anna Schmidt, Berta Braun, Clara Weiss and Eva Gr" ++ ellipsis) 0
    let marker := markerIssue (blankComments text) (71, "TODO")
    WellFormed text ∧ author ∈ anonymityIssues text ∧ IsTrace (blankComments text) author ∧
      marker ∈ markerIssues text ∧ ShowsLine (blankComments text) marker := by
  intro text author marker
  have htext : WellFormed text := by decide +kernel
  have hauthor : author ∈ anonymityIssues text := by decide +kernel
  have hmarker : marker ∈ markerIssues text := by decide +kernel
  obtain ⟨hmarkers, htraces⟩ := messages_exact htext
  exact ⟨htext, hauthor, (htraces author hauthor).2, hmarker, (hmarkers marker hmarker).2⟩

end LatexIntegrity.Submission
