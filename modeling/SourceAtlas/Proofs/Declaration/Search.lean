import SourceAtlas.Declaration
import SourceAtlas.Proofs.CSharp.WordReader

/-!
# The search for headers

The search passes over text in which no header starts, and over a header once it is found.
-/

namespace SourceAtlas

open List

variable {dialect : Dialect} {before : Option Char} {front rest : Text} {header : TypeHeader}

theorem exists_of_mem_headersFrom {skip index start stop : Nat} {text : Text}
    (h : (start, stop, header) ∈ headersFrom dialect skip before index text) :
    ∃ front rest, text = front ++ rest ∧ start = index + front.length ∧
      stop = start + (rest.length - header.rest.length) ∧
      dialect.typeHeaderAt? (lastBefore before front) rest = some header ∧ index + skip ≤ start := by
  induction text generalizing skip before index with
  | nil => simp [headersFrom] at h
  | cons c text ih =>
    have later : ∀ {skip' : Nat}, skip ≤ skip' + 1 →
        (start, stop, header) ∈ headersFrom dialect skip' (some c) (index + 1) text →
        ∃ front rest, c :: text = front ++ rest ∧ start = index + front.length ∧
          stop = start + (rest.length - header.rest.length) ∧
          dialect.typeHeaderAt? (lastBefore before front) rest = some header ∧
          index + skip ≤ start := by
      intro skip' hskip hlater
      obtain ⟨front, rest, rfl, hstart, hstop, hheader, hpassed⟩ := ih hlater
      refine ⟨c :: front, rest, rfl, ?_, hstop, by rwa [lastBefore_cons], by omega⟩
      rw [hstart, length_cons]
      omega
    rw [headersFrom] at h
    split at h
    · exact later (by omega) h
    · split at h
      · next found hfound =>
        rcases mem_cons.mp h with heq | hlater
        · simp only [Prod.mk.injEq] at heq
          obtain ⟨rfl, rfl, rfl⟩ := heq
          exact ⟨[], c :: text, rfl, rfl, rfl, hfound, by omega⟩
        · exact later (by omega) hlater
      · exact later (by omega) h

theorem headersFrom_skip (dialect : Dialect) (before : Option Char) (index : Nat)
    (front rest : Text) :
    headersFrom dialect front.length before index (front ++ rest) =
      headersFrom dialect 0 (lastBefore before front) (index + front.length) rest := by
  induction front generalizing before index with
  | nil => rfl
  | cons c front ih =>
    have hskip : 0 < (c :: front).length := by simp
    rw [cons_append, headersFrom, if_pos hskip, length_cons, Nat.add_sub_cancel, ih,
      lastBefore_cons]
    congr 1
    omega

theorem headersFrom_unread
    (h : Unread (fun before text => dialect.typeHeaderAt? before text = none) before front rest)
    (index : Nat) :
    headersFrom dialect 0 before index (front ++ rest) =
      headersFrom dialect 0 (lastBefore before front) (index + front.length) rest := by
  induction front generalizing before index with
  | nil => rfl
  | cons c front ih =>
    rw [cons_append, headersFrom, if_neg (Nat.lt_irrefl 0), h.1]
    simp only
    rw [ih h.2, lastBefore_cons, length_cons]
    congr 1
    omega

theorem headersFrom_header (hne : front ≠ [])
    (h : dialect.typeHeaderAt? before (front ++ rest) = some header) (hrest : header.rest = rest)
    (index : Nat) :
    headersFrom dialect 0 before index (front ++ rest) =
      (index, index + front.length, header) ::
        headersFrom dialect 0 (lastBefore before front) (index + front.length) rest := by
  obtain ⟨c, front, rfl⟩ := exists_cons_of_ne_nil hne
  have hlength : (c :: (front ++ rest)).length - header.rest.length = (c :: front).length := by
    rw [hrest]
    simp only [length_cons, length_append]
    omega
  rw [cons_append] at h ⊢
  rw [headersFrom, if_neg (Nat.lt_irrefl 0), h]
  simp only [hlength]
  rw [length_cons, Nat.add_sub_cancel, headersFrom_skip, lastBefore_cons]
  congr 2
  omega

end SourceAtlas
