import Bg3le.Pak.ConstructionTheorems
import Mathlib.Data.List.Pairwise

/-!
# References

The tokens of a text are apart and inside of it. A token that leads to an entry spells the range
that it names, up to case and backslashes.
-/

namespace Bg3le
namespace Pak

/-! ## Tokens of a text -/

theorem quoted_length {q : UInt8} {s body : Bytes} (h : quoted q s = some body) :
    body.length < s.length := by
  unfold quoted at h
  simp only at h
  split at h
  · next hget =>
    obtain rfl := Option.some.inj h
    exact (List.getElem?_eq_some_iff.mp hget).1
  · cases h

/-- The tokens come one after the other. -/
theorem textTokens_spec (skip : ℕ) (line : Bytes) (at_ : ℕ) (s : Bytes) :
    (∀ t ∈ textTokens skip line at_ s, at_ + skip ≤ t.offset ∧
      t.offset + t.length ≤ at_ + s.length) ∧
    (textTokens skip line at_ s).Pairwise fun t t' => t.offset + t.length ≤ t'.offset := by
  induction s generalizing skip line at_ with
  | nil =>
    rw [textTokens]
    exact ⟨fun t ht => absurd ht List.not_mem_nil, .nil⟩
  | cons c s ih =>
    -- the bounds of the rest are those of the text, one byte on
    have hstep (skip : ℕ) (line : Bytes) : (∀ t ∈ textTokens skip line (at_ + 1) s,
        at_ + (skip + 1) ≤ t.offset ∧ t.offset + t.length ≤ at_ + (c :: s).length) := by
      intro t ht
      have := (ih skip line (at_ + 1)).1 t ht
      rw [List.length_cons]
      omega
    have hstep' (line : Bytes) : (∀ t ∈ textTokens 0 line (at_ + 1) s,
        at_ + 0 ≤ t.offset ∧ t.offset + t.length ≤ at_ + (c :: s).length) := by
      intro t ht
      have := hstep 0 line t ht
      omega
    cases skip with
    -- inside a token that was found: its bytes are skipped
    | succ skip =>
      rw [textTokens]
      exact ⟨hstep skip _, (ih skip _ (at_ + 1)).2⟩
    | zero =>
      unfold textTokens
      split
      · exact ⟨hstep' _, (ih 0 _ (at_ + 1)).2⟩
      · split
        · exact ⟨hstep' _, (ih 0 _ (at_ + 1)).2⟩
        · split
          · exact ⟨hstep' _, (ih 0 _ (at_ + 1)).2⟩
          · next body hbody =>
            have hlength := quoted_length hbody
            constructor
            · intro t ht
              rcases List.mem_cons.mp ht with rfl | ht
              · rw [List.length_cons]
                simp only
                omega
              · have := hstep _ _ t ht
                omega
            · apply List.pairwise_cons.mpr
              refine ⟨fun t ht => ?_, (ih _ _ (at_ + 1)).2⟩
              have := (hstep _ _ t ht).1
              simp only
              omega

/-- Two tokens name the same range, or disjoint ones. -/
def LsfString.Separated (t t' : LsfString) : Prop :=
  (t.offset = t'.offset ∧ t.length = t'.length) ∨
    t.offset + t.length ≤ t'.offset ∨ t'.offset + t'.length ≤ t.offset

/-- The string ranges of a document are disjoint or equal. -/
def LsfDocument.Separated (doc : LsfDocument) : Prop :=
  ∀ t ∈ doc.stringValues, ∀ t' ∈ doc.stringValues, t.Separated t'

instance : Std.Symm LsfString.Separated where
  symm t t' h := by
    rcases h with ⟨hoffset, hlength⟩ | hle | hle
    · exact .inl ⟨hoffset.symm, hlength.symm⟩
    · exact .inr (.inr hle)
    · exact .inr (.inl hle)

theorem Content.token_le (content : Content) {t : LsfString} (ht : t ∈ content.tokens) :
    t.offset + t.length ≤ content.bytes.length := by
  unfold Content.tokens at ht
  unfold Content.bytes
  split
  · next hlsf =>
    rw [if_pos hlsf] at ht
    exact content.doc.inBounds t ht
  · next hlsf =>
    rw [if_neg hlsf] at ht
    have := ((textTokens_spec 0 [] 0 content.text).1 t ht).2
    omega

theorem Content.tokens_separated {content : Content}
    (hdoc : content.lsf = true → content.doc.Separated) {t t' : LsfString}
    (ht : t ∈ content.tokens) (ht' : t' ∈ content.tokens) : t.Separated t' := by
  unfold Content.tokens at ht ht'
  by_cases hlsf : content.lsf = true
  · rw [if_pos hlsf] at ht ht'
    exact hdoc hlsf t ht t' ht'
  · rw [if_neg hlsf] at ht ht'
    have hpairwise : (textTokens 0 [] 0 content.text).Pairwise LsfString.Separated :=
      (textTokens_spec 0 [] 0 content.text).2.imp fun h => .inr (.inl h)
    exact hpairwise.forall_of_forall (fun _ _ => .inl ⟨rfl, rfl⟩) ht ht'

/-! ## What a token leads to -/

/-- What the entry at the end of a link has to do with the token `raw`: the token spells the range
of the name, or the stem of every icon. -/
def Target.Spelled (X : Index) (raw : Bytes) : Target → Prop
  | .entry i begin stop => i < X.names.length ∧ begin ≤ stop ∧ stop ≤ (X.name i).length ∧
      stop - begin ≤ raw.length ∧
      ∀ k, begin + k < stop → (lowered raw)[k]? = (lowered (X.name i))[begin + k]?
  | .icons entries => entries ≠ [] ∧ 47 ∉ lowered raw ∧
      ∀ e ∈ entries, e < X.names.length ∧ lowered raw = stemText (X.name e)

/-- The indexes lead to exactly the names that have what they are looked up by. -/
structure Indexed (X : Index) : Prop where
  full (key : Bytes) : X.full key =
    (List.range X.names.length).filter fun i => lowered (X.name i) = key
  suffixes (key : Bytes) : X.suffixes key = (List.range X.names.length).filter fun i =>
    ∃ slash ∈ slashes (X.name i), key = (lowered (X.name i)).drop (slash + 1)
  icons (key : Bytes) : X.icons key = (List.range X.names.length).filter fun i =>
    isIcon (X.name i) = true ∧ key = stemText (X.name i)

theorem Complete.indexed {B : ℕ ⊕ ℕ → Bytes} {f : Fixer} {l : Ledger}
    (h : Complete B f l f.index.names.length) : Indexed f.index :=
  ⟨h.full, h.suffixes, h.icons⟩

variable {X : Index} {source raw attributeName : Bytes} {i : ℕ} {target : Target}

theorem mem_of_unique {l : List ℕ} (h : unique l = some i) : i ∈ l := by
  unfold unique at h
  split at h
  · obtain rfl := Option.some.inj h
    exact List.mem_singleton_self _
  · cases h

theorem Indexed.length_of_full (hX : Indexed X) {key : Bytes} (h : unique (X.full key) = some i) :
    i < X.names.length ∧ (X.name i).length = key.length ∧ lowered (X.name i) = key := by
  have hmem := mem_of_unique h
  rw [hX.full, List.mem_filter, List.mem_range, decide_eq_true_eq] at hmem
  obtain ⟨hi, hkey⟩ := hmem
  exact ⟨hi, by rw [← hkey, length_lowered], hkey⟩

theorem spelled_full (hX : Indexed X) (h : unique (X.full (lowered raw)) = some i) :
    (Target.entry i 0 (X.name i).length).Spelled X raw := by
  obtain ⟨hi, hlength, hkey⟩ := hX.length_of_full h
  rw [length_lowered] at hlength
  refine ⟨hi, Nat.zero_le _, le_rfl, by omega, fun k _ => ?_⟩
  rw [hkey, Nat.zero_add]

theorem spelled_tail (hX : Indexed X) (h : X.tail source (lowered raw) raw.length = some i) :
    (Target.entry i ((X.name i).length - raw.length) (X.name i).length).Spelled X raw := by
  unfold Index.tail at h
  split at h
  · obtain ⟨hunique, -⟩ := Option.filter_eq_some_iff.mp h
    have hmem := mem_of_unique hunique
    rw [hX.suffixes, List.mem_filter, List.mem_range, decide_eq_true_eq] at hmem
    obtain ⟨hi, slash, hslash, hkey⟩ := hmem
    have hlt := (List.getElem?_eq_some_iff.mp (mem_slashes.mp hslash)).1
    have hlength := congrArg List.length hkey
    rw [length_lowered, List.length_drop, length_lowered] at hlength
    refine ⟨hi, Nat.sub_le _ _, le_rfl, by omega, fun k _ => ?_⟩
    rw [hkey, List.getElem?_drop, hlength]
    congr 1
    omega
  · cases h

/-- The texture beside a GUI metadata file. -/
theorem spelled_texture (hX : Indexed X) {dir : Bytes} (hlength : 4 ≤ raw.length)
    (h : unique (X.full (dir ++ bytes "/" ++ (lowered raw).take (raw.length - 4) ++ bytes ".dds")) =
      some i) :
    (Target.entry i (dir.length + 1) ((X.name i).length - 4)).Spelled X raw := by
  obtain ⟨hi, hlen, hkey⟩ := hX.length_of_full h
  have hslash : (bytes "/").length = 1 := by decide
  have hdds : (bytes ".dds").length = 4 := by decide
  have htake : ((lowered raw).take (raw.length - 4)).length = raw.length - 4 := by
    rw [List.length_take, length_lowered]
    omega
  rw [List.length_append, List.length_append, List.length_append, hslash, hdds, htake] at hlen
  refine ⟨hi, by omega, Nat.sub_le _ _, by omega, fun k hk => ?_⟩
  have hdir : (dir ++ bytes "/").length = dir.length + 1 := by rw [List.length_append, hslash]
  rw [hkey, List.append_assoc, List.getElem?_append_right (by omega), hdir,
    List.getElem?_append_left (by omega), List.getElem?_take_of_lt (by omega),
    Nat.add_sub_cancel_left]

/-- A token names what it leads to. -/
theorem Indexed.spelled (hX : Indexed X)
    (h : X.resolve source raw raw.length attributeName = some target) : target.Spelled X raw := by
  unfold Index.resolve at h
  split at h
  · cases h
  split at h
  · cases h
  simp only at h
  split at h
  · next i hfull =>
    obtain rfl := Option.some.inj h
    exact spelled_full hX hfull
  split at h
  · next i htail =>
    obtain rfl := Option.some.inj h
    exact spelled_tail hX htail
  split at h
  · next hpng =>
    obtain ⟨i, hunique, rfl⟩ := Option.map_eq_some_iff.mp h
    apply spelled_texture hX _ hunique
    have hends := hpng.1
    unfold iendsWith at hends
    simp only [Bool.and_eq_true, decide_eq_true_eq, length_lowered] at hends
    exact hends.1
  split at h
  · next hicon =>
    split at h
    · cases h
    · next hne =>
      obtain rfl := Option.some.inj h
      refine ⟨hne, hicon.1, fun e he => ?_⟩
      rw [hX.icons, List.mem_filter, List.mem_range, decide_eq_true_eq] at he
      exact ⟨he.1, he.2.2⟩
  · cases h

/-- The attribute decides only whether icons are meant. -/
theorem resolve_eq {attributeName' : Bytes} {target' : Target}
    (h : X.resolve source raw raw.length attributeName = some target)
    (h' : X.resolve source raw raw.length attributeName' = some target') : target = target' := by
  unfold Index.resolve at h h'
  split at h
  · cases h
  next hlen =>
  rw [if_neg hlen] at h'
  split at h
  · cases h
  next hplain =>
  rw [if_neg hplain] at h'
  simp only at h h'
  split at h
  · next i hfull =>
    rw [hfull] at h'
    exact Option.some.inj (h.symm.trans h')
  next hfull =>
  rw [hfull] at h'
  simp only at h'
  split at h
  · next i htail =>
    rw [htail] at h'
    exact Option.some.inj (h.symm.trans h')
  next htail =>
  rw [htail] at h'
  simp only at h'
  split at h
  · next hpng =>
    rw [if_pos hpng] at h'
    exact Option.some.inj (h.symm.trans h')
  next hpng =>
  rw [if_neg hpng] at h'
  split at h
  · split at h'
    · exact Option.some.inj (h.symm.trans h')
    · cases h'
  · cases h

end Pak
end Bg3le
