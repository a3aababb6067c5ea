import LatexIntegrity.Proofs.Balance.Tally
import LatexIntegrity.Proofs.Log.Errors
import LatexIntegrity.Proofs.Source.Paths
import LatexIntegrity.Proofs.Submission.Excerpts
import LatexIntegrity.Proofs.Submission.Phrases
import LatexIntegrity.Proofs.Text.Occurrences
import LatexIntegrity.Report.Diagnostic
import LatexIntegrity.Submission.Completeness

/-!
# Messages of issues

No message holds a line feed, whatever the document or the log is.  What it takes from
them is a line, an excerpt, the name of an environment or the address of a repository.
-/

namespace LatexIntegrity

open Text (IsUnbroken)

theorem Decimal.isUnbroken_render (n : Nat) : IsUnbroken (render n) := by
  intro hmem
  obtain ⟨digit, hdigit, hbyte⟩ := List.mem_map.mp hmem
  have hrange := Char.isDigit_iff_toNat.mp
    (Nat.isDigit_of_mem_toDigits (by decide) (by decide) hdigit)
  have hvalue := congrArg UInt8.toNat hbyte
  have hdigit : digit.toUInt8.toNat = digit.toNat % 256 := UInt32.toNat_toUInt8 _
  have hfeed : ('\n' : UInt8).toNat = 10 := by decide
  have hzero : '0'.toNat = 48 := by decide
  have hnine : '9'.toNat = 57 := by decide
  omega

/-! ## Imbalances -/

theorem Environment.IsName.isUnbroken {name : Text} (h : Environment.IsName name) :
    name.IsUnbroken := by
  intro hmem
  exact absurd (h.2 _ hmem) (by decide)

theorem isUnbroken_imbalance {name : Text} (h : name.IsUnbroken) (opened closed offset : Nat) :
    (Issue.imbalance name opened closed offset).message.IsUnbroken := by
  have hbefore : IsUnbroken "environment '" := by decide
  have hopened : IsUnbroken " \\begin and " := by decide
  have hbehind : IsUnbroken "' has " := by decide
  have hclosed : IsUnbroken " \\end" := by decide
  simp [Issue.imbalance, hbefore, hopened, hbehind, hclosed, h, Decimal.isUnbroken_render]

theorem isUnbroken_balanceIssues {text : Text} :
    ∀ issue ∈ balanceIssues text, issue.message.IsUnbroken := by
  intro issue hissue
  obtain ⟨name, count, hcount, -, rfl⟩ := Balance.mem_issues.mp hissue
  obtain ⟨last, hlast, -⟩ := Option.map_eq_some_iff.mp hcount
  obtain ⟨hlast, hname⟩ := List.mem_filter.mp (List.mem_of_getLast? hlast)
  have hread := (Balance.mem_delimiters_segment.mp hlast).1
  rw [← beq_iff_eq.mp hname]
  exact isUnbroken_imbalance (isName_of_delimiterAt? hread).isUnbroken _ _ _

/-! ## Logs -/

namespace Log

theorem isUnbroken_of_mem_logLines {log line : Text} (h : line ∈ logLines log) :
    line.IsUnbroken := by
  obtain ⟨original, horiginal, rfl⟩ := List.mem_map.mp h
  have hline := Text.isUnbroken_of_mem_lines horiginal
  unfold Text.withoutReturn
  split
  · exact hline.of_subset (List.dropLast_subset _)
  · exact hline

theorem isUnbroken_warning? {line : Text} (h : line.IsUnbroken) {issue : Issue}
    (hissue : warning? line = some issue) : issue.message.IsUnbroken := by
  have htrim := h.trim Ascii.isSpace
  unfold warning? at hissue
  split at hissue
  · cases hissue
    exact htrim
  · split at hissue
    · cases hissue
      exact htrim
    · split at hissue
      · cases hissue
        exact htrim
      · cases hissue

theorem isUnbroken_classify {log : Text} :
    ∀ issue ∈ classify log, issue.message.IsUnbroken := by
  intro issue hissue
  rw [classify, errors_eq] at hissue
  rcases List.mem_append.mp hissue with herror | hwarning
  · obtain ⟨number, hnumber, rfl⟩ := List.mem_map.mp herror
    have hlt : number < (logLines log).length := by
      simpa using (List.mem_filter.mp hnumber).1
    have hline := isUnbroken_of_mem_logLines (List.getElem_mem hlt)
    have hget : (logLines log).getD number [] = (logLines log)[number] := by simp [hlt]
    rw [errorAt, errorOf, hget]
    exact hline.drop 2
  · obtain ⟨line, hline, hissue⟩ := List.mem_filterMap.mp hwarning
    exact isUnbroken_warning? (isUnbroken_of_mem_logLines hline) hissue

end Log

/-! ## Submissions -/

namespace Submission

theorem isUnbroken_excerpt (limit : Nat) (text : Text) : IsUnbroken (excerpt limit text) :=
  (isSpaced_excerpt limit text).oneLine.1

theorem isUnbroken_markerIssues {text : Text} :
    ∀ issue ∈ markerIssues text, issue.message.IsUnbroken := by
  have hmarkers : ∀ marker ∈ todoMarkers, marker.IsUnbroken := by decide
  have hlabel : IsUnbroken " marker: " := by decide
  intro issue hissue
  simp only [markerIssues, markerHits, List.mem_map, List.mem_mergeSort, List.mem_flatMap] at hissue
  obtain ⟨hit, ⟨marker, hmarker, offset, -, rfl⟩, rfl⟩ := hissue
  simp [markerIssue, hmarkers marker hmarker, hlabel, isUnbroken_excerpt]

theorem isUnbroken_sectionIssues {text : Text} :
    ∀ issue ∈ sectionIssues text, issue.message.IsUnbroken := by
  have husual : ∀ expected ∈ usualSections, (missingExpected expected).message.IsUnbroken := by
    decide
  have hfixed : ∀ issue ∈ [missingRequired "Abstract", missingRequired "Introduction",
      abstractIsSection], issue.message.IsUnbroken := by decide
  intro issue hissue
  simp only [sectionIssues, List.mem_append, List.mem_map, List.mem_filter, List.mem_ite_nil_left,
    List.mem_ite_nil_right, List.mem_singleton] at hissue
  rcases hissue with ((⟨-, rfl⟩ | ⟨-, rfl⟩) | ⟨-, rfl⟩) | ⟨expected, ⟨hexpected, -⟩, rfl⟩
  · exact hfixed _ (by simp)
  · exact hfixed _ (by simp)
  · exact hfixed _ (by simp)
  · exact husual expected hexpected

theorem isUnbroken_repository {address visible : Text} {offset length : Nat}
    (haddress : address.IsUnbroken) (hplace : address <+: (Ascii.lower visible).drop offset)
    (h : repositoryLength? address ((Ascii.lower visible).drop offset) = some length) :
    IsUnbroken ((visible.drop offset).take length) := by
  have howner : ∀ b, isOwnerByte b = true → b ≠ '\n' := by
    rintro _ hb rfl
    exact absurd hb (by decide)
  have hfold : ∀ b, Ascii.toLower b ≠ '\n' → b ≠ '\n' := by
    rintro _ hb rfl
    exact hb (by decide)
  have hbytes := forall_mem_of_lower hfold (forall_mem_repositoryLength? h hplace
    (fun _ hb => ne_of_mem_of_not_mem hb haddress) howner (by decide))
  exact fun hmem => hbytes _ hmem rfl

theorem isUnbroken_anonymityIssues {text : Text} :
    ∀ issue ∈ anonymityIssues text, issue.message.IsUnbroken := by
  have hauthor : IsUnbroken "author field names the authors: " := by decide
  have hself : IsUnbroken "possible self-citation: \"" := by decide
  have hquote : IsUnbroken "\"" := by decide
  have hurl : IsUnbroken "non-anonymous URL found: " := by decide
  have hhosts : ∀ host ∈ repositoryHosts,
      host.address.IsUnbroken ∧ IsUnbroken (host.name ++ " link found: ") := by decide
  have hthanks : IsUnbroken "acknowledgments section present; remove it for anonymous review" := by
    decide
  intro issue hissue
  simp only [anonymityIssues, List.mem_append, List.mem_filterMap, Option.mem_toList] at hissue
  rcases hissue with (((hissue | ⟨phrase, -, hissue⟩) | ⟨host, hhost, hissue⟩) | hissue) | hissue
  · obtain ⟨⟨offset, names⟩, -, h⟩ := Option.bind_eq_some_iff.mp hissue
    dsimp only at h
    split at h
    · cases h
    · cases h
      exact Text.isUnbroken_append.mpr ⟨hauthor, isUnbroken_excerpt _ _⟩
  · obtain ⟨⟨offset, length⟩, -, rfl⟩ := Option.map_eq_some_iff.mp hissue
    simp [anonymityIssue, hself, hquote, isUnbroken_excerpt]
  · obtain ⟨offset, hoffset, h⟩ := List.exists_of_findSome?_eq_some hissue
    obtain ⟨length, hlength, rfl⟩ := Option.map_eq_some_iff.mp h
    obtain ⟨distance, rfl, hplace⟩ := Text.prefix_of_mem_occurrencesFrom hoffset
    obtain ⟨haddress, hlabel⟩ := hhosts host hhost
    rw [Nat.zero_add] at hlength ⊢
    exact Text.isUnbroken_append.mpr ⟨hlabel, isUnbroken_repository haddress hplace hlength⟩
  · obtain ⟨⟨offset, target⟩, -, rfl⟩ := Option.map_eq_some_iff.mp hissue
    exact Text.isUnbroken_append.mpr ⟨hurl, isUnbroken_excerpt _ _⟩
  · obtain ⟨heading, -, rfl⟩ := Option.map_eq_some_iff.mp hissue
    exact hthanks

end Submission

end LatexIntegrity
