import HeadlessCms.Config
import HeadlessCms.Proofs.Except

/-!
# Configurations that have been checked

The slugs of a checked configuration are different from each other and from reserved names
(`Config.slugs_of_validate`).
-/

namespace HeadlessCms.Config

/-- Checked slugs are distinct, new and not reserved. -/
theorem slugs_of_checkSlugs {seen slugs : List String} (h : checkSlugs seen slugs = .ok ()) :
    slugs.Nodup ∧ ∀ slug ∈ slugs, slug ∉ seen ∧ slug ∉ reservedSlugs := by
  induction slugs generalizing seen with
  | nil => simp
  | cons slug rest ih =>
    unfold checkSlugs at h
    split at h
    · simp at h
    · split at h
      · simp at h
      · next hreserved =>
        split at h
        · simp at h
        · next hseen =>
          obtain ⟨hnodup, hrest⟩ := ih h
          refine ⟨List.nodup_cons.2 ⟨fun hmem => ?_, hnodup⟩, fun other hother => ?_⟩
          · exact (hrest slug hmem).1 List.mem_cons_self
          · rcases List.mem_cons.1 hother with rfl | hother
            · exact ⟨by simpa using hseen, by simpa using hreserved⟩
            · exact ⟨fun hmem => (hrest other hother).1 (List.mem_cons_of_mem _ hmem),
                (hrest other hother).2⟩

/-- Checked slugs of which some are left out are checked slugs. -/
theorem checkSlugs_of_sublist {seen seen' slugs slugs' : List String}
    (h : checkSlugs seen slugs = .ok ()) (hsub : slugs'.Sublist slugs)
    (hseen : ∀ slug ∈ seen', slug ∈ seen) : checkSlugs seen' slugs' = .ok () := by
  induction hsub generalizing seen seen' with
  | slnil => rfl
  | cons slug _ ih =>
    unfold checkSlugs at h
    split at h
    · cases h
    · split at h
      · cases h
      · split at h
        · cases h
        · exact ih h fun other hother => List.mem_cons_of_mem _ (hseen other hother)
  | cons_cons slug _ ih =>
    unfold checkSlugs at h ⊢
    split at h
    · cases h
    · split at h
      · cases h
      · split at h
        · cases h
        · next hblank hreserved hnew =>
          have hnew' : ¬ seen'.contains slug = true := fun hmem =>
            hnew (List.contains_iff_mem.2 (hseen slug (List.contains_iff_mem.1 hmem)))
          rw [if_neg hblank, if_neg hreserved, if_neg hnew']
          exact ih h fun other hother => (List.mem_cons.1 hother).elim
            (fun heq => heq ▸ List.mem_cons_self) fun hold =>
              List.mem_cons_of_mem _ (hseen other hold)

/-- **Slugs are different from each other and not reserved.** -/
theorem slugs_of_validate {config : Config} (h : config.validate = .ok ()) :
    ((config.collections ++ config.globals).map (·.slug)).Nodup ∧
      ∀ slug ∈ (config.collections ++ config.globals).map (·.slug), slug ∉ reservedSlugs := by
  obtain ⟨_, hslugs, _⟩ := Except.bind_eq_ok_iff.1 h
  obtain ⟨hnodup, hall⟩ := slugs_of_checkSlugs hslugs
  exact ⟨hnodup, fun slug hslug => (hall slug hslug).2⟩

end HeadlessCms.Config
