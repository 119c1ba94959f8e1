import IndexServer.StringFunctions.Split

/-!
# Sites

`Site::toString` and `Site::toSite`. No occurrence of the delimiter overlaps another, so the text of
a site is cut where its fields were joined, and otherwise only inside the fields.
-/

namespace IndexServer

open Splitting

structure Site where
  title : WString
  link : WString
  snippet : WString
  deriving DecidableEq, Repr

namespace Site

def delimiter : WString := [36, 35, 64, 60, 33, 95, 115, 112, 97, 99, 101, 95, 62]

def toString (site : Site) : WString :=
  site.title ++ delimiter ++ site.link ++ delimiter ++ site.snippet

def toSite (string : WString) : Exec Site := do
  let s ← split string delimiter
  let title ← vectorGet s 0
  let link ← vectorGet s 1
  let snippet ← vectorGet s 2
  return { title, link, snippet }

theorem delimiter_ne_nil : delimiter ≠ [] := List.cons_ne_nil _ _

theorem delimiter_unbordered : Unbordered delimiter := by decide

theorem toSite_of_cuts {string title link snippet : WString} {more : List WString}
    (h : Cuts delimiter string (title :: link :: snippet :: more)) :
    toSite string = .ok ⟨title, link, snippet⟩ := by
  rw [toSite, (split_eq_ok delimiter_ne_nil).mpr h]
  rfl

/-- What `toSite` returns are parts of the string, so they contain no delimiter. -/
theorem free_of_toSite {string : WString} {site : Site} (h : toSite string = .ok site) :
    ¬ delimiter <:+: site.title ∧ ¬ delimiter <:+: site.link ∧
      ¬ delimiter <:+: site.snippet := by
  obtain ⟨parts, hsplit, h⟩ := Exec.bind_eq_ok.mp h
  obtain ⟨title, htitle, h⟩ := Exec.bind_eq_ok.mp h
  obtain ⟨link, hlink, h⟩ := Exec.bind_eq_ok.mp h
  obtain ⟨snippet, hsnippet, h⟩ := Exec.bind_eq_ok.mp h
  cases h
  have hfree := ((split_eq_ok delimiter_ne_nil).mp hsplit).free
  have hpart : ∀ (i : ℕ) (part : WString), vectorGet parts i = .ok part →
      ¬ delimiter <:+: part :=
    fun i part h => hfree part (List.mem_of_getElem? (vectorGet_natCast_eq_ok.mp h))
  exact ⟨hpart 0 title htitle, hpart 1 link hlink, hpart 2 snippet hsnippet⟩

theorem toString_cuts (site : Site) :
    ∃ title link snippet more,
      Cuts delimiter site.toString (title :: link :: snippet :: more) := by
  obtain ⟨titles, _, htitle⟩ := exists_split site.title delimiter_ne_nil
  obtain ⟨links, _, hlink⟩ := exists_split site.link delimiter_ne_nil
  obtain ⟨snippets, _, hsnippet⟩ := exists_split site.snippet delimiter_ne_nil
  have hcuts := (htitle.append delimiter_unbordered hlink).append delimiter_unbordered hsnippet
  have hlength : 3 ≤ (titles ++ links ++ snippets).length := by
    have htitles := List.length_pos_iff.mpr htitle.ne_nil
    have hlinks := List.length_pos_iff.mpr hlink.ne_nil
    have hsnippets := List.length_pos_iff.mpr hsnippet.ne_nil
    simp only [List.length_append]
    omega
  match hparts : titles ++ links ++ snippets with
  | title :: link :: snippet :: more =>
      rw [hparts] at hcuts
      exact ⟨title, link, snippet, more, hcuts⟩
  | [] | [_] | [_, _] => simp [hparts] at hlength

/-- A site is read back from its text exactly if no field contains the delimiter. -/
theorem toSite_toString_iff (title link snippet : WString) :
    toSite (toString ⟨title, link, snippet⟩) = .ok ⟨title, link, snippet⟩ ↔
      ¬ delimiter <:+: title ∧ ¬ delimiter <:+: link ∧ ¬ delimiter <:+: snippet := by
  constructor
  · exact free_of_toSite
  · rintro ⟨htitle, hlink, hsnippet⟩
    have hcuts := ((Cuts.last htitle).append delimiter_unbordered (.last hlink)).append
      delimiter_unbordered (.last hsnippet)
    exact toSite_of_cuts hcuts

end Site

end IndexServer
