import NostrServer.Completion
import NostrServer.Lib.Compaction
import NostrServer.Lib.Ranking

namespace NostrServer

open Compaction

variable {ext : External}

/-- The predicate of `tokenize_text`: whether `x` repeats the word that `iter` stands at, in
the range that is being compacted. -/
def repeatsWord (range : List WordToken) (iter : Nat) (x : WordToken) : Option (Bool × Nat) := do
  let last ← range[iter]?
  if x.1 ≠ last.1 then some (false, iter + 1) else some (true, iter)

/-- The end of `tokenize_text`: `remove_if` from the second token on, and `erase`. -/
def eraseRepeated (moved : WordToken → WordToken) (tokens : List WordToken) :
    Option (List WordToken) :=
  if tokens.isEmpty then some tokens
  else (removeIf moved repeatsWord (tokens.length - 1) tokens 1 1 0).map (fun r => r.1.take r.2)

def pushedTokens (ext : External) (text : Str) : List WordToken :=
  (wordVariants ext text).map (wordToken ext)

/-- `tokenize_text`, in the vector it fills. -/
def tokenizeInPlace (ext : External) (moved : WordToken → WordToken) (text : Str) :
    Option (List WordToken) :=
  eraseRepeated moved ((pushedTokens ext text).mergeSort tokenLe)

def repeatsLast (done : List WordToken) (x : WordToken) : Bool :=
  match done.getLast? with
  | some last => x.1 == last.1
  | none => false

/-- The iterator of the predicate stands at the last token kept, whatever is moved. -/
theorem repeatsWord_follows :
    Follows repeatsWord repeatsLast (fun done : List WordToken => done.length - 1) := by
  intro done beyond x hne
  rcases List.eq_nil_or_concat done with rfl | ⟨before, last, rfl⟩
  · exact absurd rfl hne
  have hread : (before.concat last ++ beyond)[(before.concat last).length - 1]? = some last := by
    simp
  have hlast : repeatsLast (before.concat last) x = (x.1 == last.1) := by simp [repeatsLast]
  simp only [repeatsWord, hread, hlast, Option.bind_eq_bind, Option.bind_some]
  by_cases hx : x.1 = last.1 <;> simp [hx]

theorem kept_repeated (done : List WordToken) (last : WordToken) (rest : List WordToken) :
    kept repeatsLast (done ++ [last]) rest = done ++ last :: removeRepeated last rest := by
  induction rest generalizing done last with
  | nil => rfl
  | cons x rest ih =>
    have hlast : repeatsLast (done ++ [last]) x = (x.1 == last.1) := by simp [repeatsLast]
    simp only [kept, removeRepeated, hlast]
    by_cases hx : x.1 = last.1
    · simp [hx, ih]
    · have hnext := ih (done ++ [last]) x
      simp only [List.append_assoc, List.singleton_append] at hnext
      simp [hx, hnext]

/-- What the pass in place leaves is the first token of each run of one word. -/
theorem eraseRepeated_eq (moved : WordToken → WordToken) (t : WordToken) (rest : List WordToken) :
    eraseRepeated moved (t :: rest) = some (t :: removeRepeated t rest) := by
  obtain ⟨beyond, h⟩ := removeIf_kept repeatsWord_follows moved rest [t] [] (by simp)
  rw [← List.nil_append [t], kept_repeated] at h
  simp only [List.nil_append, List.append_nil, List.length_singleton, List.length_nil,
    Nat.add_zero, Nat.sub_self, List.singleton_append] at h
  simp [eraseRepeated, h]

theorem tokenizeInPlace_eq (moved : WordToken → WordToken) (text : Str) :
    tokenizeInPlace ext moved text = some (tokenizeText ext text) := by
  unfold tokenizeInPlace tokenizeText pushedTokens wordVariants
  dsimp only
  split
  · rename_i hnil
    rw [hnil]
    rfl
  · rename_i t rest hcons
    rw [hcons, eraseRepeated_eq]

/-- Tokens are ordered by the word, then by the relevance. -/
theorem tokenLe_ranking : Ranking tokenLe Prod.fst Prod.snd where
  iff a b := by simp [tokenLe]
  key_irrefl := List.lt_irrefl
  key_trans := List.lt_trans
  key_total := Std.lt_trichotomy
  rank_trans := UInt8.le_trans
  rank_total := UInt8.le_total

/-- Of sorted tokens, the words that stay ascend, and each is left with its least
relevance. -/
theorem removeRepeated_sorted {t : WordToken} {rest : List WordToken}
    (h : (t :: rest).Pairwise (fun a b => tokenLe a b = true)) :
    (t :: removeRepeated t rest).Pairwise (fun a b => a.1 < b.1) ∧
    ∀ y ∈ t :: removeRepeated t rest, ∀ x ∈ t :: rest, x.1 = y.1 → y.2 ≤ x.2 := by
  induction rest generalizing t with
  | nil => simp [removeRepeated]
  | cons x rest ih =>
    obtain ⟨ht, hrest⟩ := List.pairwise_cons.mp h
    have htx := (tokenLe_ranking.iff t x).mp (ht x List.mem_cons_self)
    by_cases hx : x.1 = t.1
    · -- `x` goes: it has the word of `t` with no smaller relevance
      have hsame : removeRepeated t (x :: rest) = removeRepeated t rest := by
        simp [removeRepeated, hx]
      have htrest := List.pairwise_cons.mpr ⟨fun y hy => ht y (List.mem_cons_of_mem _ hy),
        (List.pairwise_cons.mp hrest).2⟩
      obtain ⟨hascend, hleast⟩ := ih htrest
      rw [hsame]
      refine ⟨hascend, ?_⟩
      intro y hy z hz hzy
      rcases List.mem_cons.mp hz with rfl | hz
      · exact hleast y hy _ List.mem_cons_self hzy
      rcases List.mem_cons.mp hz with rfl | hz
      · have hle : t.2 ≤ z.2 := by
          rcases htx with hlt | ⟨-, hr⟩
          · exact absurd (hx ▸ hlt) (List.lt_irrefl _)
          · exact hr
        exact UInt8.le_trans (hleast y hy t List.mem_cons_self (hx.symm.trans hzy)) hle
      · exact hleast y hy z (List.mem_cons_of_mem _ hz) hzy
    · have hlt : t.1 < x.1 := htx.resolve_right (fun hr => hx hr.1.symm)
      have hnext : removeRepeated t (x :: rest) = x :: removeRepeated x rest := by
        simp [removeRepeated, hx]
      obtain ⟨hascend, hleast⟩ := ih hrest
      have habove (y : WordToken) (hy : y ∈ x :: rest) : t.1 < y.1 := by
        rcases List.mem_cons.mp hy with rfl | hy
        · exact hlt
        · rcases (tokenLe_ranking.iff x y).mp ((List.pairwise_cons.mp hrest).1 y hy) with
            hxy | ⟨hxy, -⟩
          · exact List.lt_trans hlt hxy
          · exact hxy ▸ hlt
      have hkept (y : WordToken) (hy : y ∈ x :: removeRepeated x rest) : t.1 < y.1 :=
        habove y (List.cons_subset_cons x (removeRepeated_sublist x rest).subset hy)
      rw [hnext]
      refine ⟨List.pairwise_cons.mpr ⟨hkept, hascend⟩, ?_⟩
      intro y hy z hz hzy
      rcases List.mem_cons.mp hy with rfl | hyx
      · rcases List.mem_cons.mp hz with rfl | hzx
        · exact UInt8.le_refl _
        · exact absurd (hzy ▸ habove z hzx) (List.lt_irrefl _)
      · rcases List.mem_cons.mp hz with rfl | hzx
        · exact absurd (hzy ▸ hkept y hyx) (List.lt_irrefl _)
        · exact hleast y hyx z hzx hzy

theorem tokenizeText_ascends (ext : External) (text : Str) :
    (tokenizeText ext text).Pairwise (fun a b => a.1 < b.1) ∧
    ∀ y ∈ tokenizeText ext text, ∀ x ∈ pushedTokens ext text, x.1 = y.1 → y.2 ≤ x.2 := by
  have hsorted := tokenLe_ranking.sorted (pushedTokens ext text)
  have hperm := List.mergeSort_perm (pushedTokens ext text) tokenLe
  unfold tokenizeText
  dsimp only
  split
  · simp
  · rename_i t rest hcons
    change (pushedTokens ext text).mergeSort tokenLe = t :: rest at hcons
    rw [hcons] at hsorted hperm
    obtain ⟨hascend, hleast⟩ := removeRepeated_sorted hsorted
    refine ⟨hascend, ?_⟩
    intro y hy x hx
    exact hleast y hy x (hperm.mem_iff.mpr hx)

def cutUtf8 (ext : External) (w : List UInt32) : Str := (w.flatMap ext.wcharToUtf8).take 15

/-- What is pushed for the words of a text: each with relevance one, and its variant
without accents, when that differs, with two. -/
theorem mem_pushedTokens : tk ∈ pushedTokens ext text ↔
    ∃ w ∈ splitWords ext [] (ext.wideChars text), tk = (cutUtf8 ext w, 1) ∨
      (w.flatMap (unacChar ext) ≠ w ∧ tk = (cutUtf8 ext (w.flatMap (unacChar ext)), 2)) := by
  simp only [pushedTokens, wordVariants, List.map_flatMap, List.mem_flatMap]
  apply exists_congr
  intro w
  apply and_congr_right
  intro _
  by_cases hsame : w.flatMap (unacChar ext) = w
  · simp [unacWord, hsame, wordToken, cutUtf8]
  · simp [unacWord, hsame, wordToken, cutUtf8]

/-- The vector that is left: the words of the text and their variants without accents,
ascending, each with the least relevance it was pushed with. -/
theorem tokens_exact (ext : External) (moved : WordToken → WordToken) (text : Str) :
    ∃ tokens, tokenizeInPlace ext moved text = some tokens ∧
      tokens.Pairwise (fun a b => a.1 < b.1) ∧
      (∀ word, (∃ tk ∈ tokens, tk.1 = word) ↔ ∃ w ∈ splitWords ext [] (ext.wideChars text),
        word = cutUtf8 ext w ∨ word = cutUtf8 ext (w.flatMap (unacChar ext))) ∧
      ∀ tk ∈ tokens, tk ∈ pushedTokens ext text ∧
        ∀ tk' ∈ pushedTokens ext text, tk'.1 = tk.1 → tk.2 ≤ tk'.2 := by
  have hpushed (tk : WordToken) (h : tk ∈ tokenizeText ext text) : tk ∈ pushedTokens ext text := by
    obtain ⟨w, hw, rfl⟩ := mem_tokenizeText h
    exact List.mem_map_of_mem hw
  obtain ⟨hascend, hleast⟩ := tokenizeText_ascends ext text
  refine ⟨_, tokenizeInPlace_eq moved text, hascend, ?_, fun tk h => ⟨hpushed tk h, hleast tk h⟩⟩
  intro word
  constructor
  · rintro ⟨tk, htk, rfl⟩
    obtain ⟨w, hw, rfl | ⟨-, rfl⟩⟩ := mem_pushedTokens.mp (hpushed tk htk)
    · exact ⟨w, hw, Or.inl rfl⟩
    · exact ⟨w, hw, Or.inr rfl⟩
  · rintro ⟨w, hw, hword⟩
    -- a variant that is the word itself was pushed as the word
    have hany : ∃ tk ∈ pushedTokens ext text, tk.1 = word := by
      rcases hword with rfl | rfl
      · exact ⟨_, mem_pushedTokens.mpr ⟨w, hw, Or.inl rfl⟩, rfl⟩
      · by_cases hsame : w.flatMap (unacChar ext) = w
        · exact ⟨_, mem_pushedTokens.mpr ⟨w, hw, Or.inl rfl⟩, by rw [hsame]⟩
        · exact ⟨_, mem_pushedTokens.mpr ⟨w, hw, Or.inr ⟨hsame, rfl⟩⟩, rfl⟩
    obtain ⟨tk, htk, rfl⟩ := hany
    obtain ⟨v, hv, rfl⟩ := List.mem_map.mp htk
    exact tokenizeText_covers hv

end NostrServer
