import Mathlib.Data.List.Nodup
import Mathlib.Data.List.Basic
import Mathlib.Data.List.Induction

/-!
# Writers Sharing One Buffer

Several writers append to one buffer; a flush by any of them publishes whatever the buffer
holds as one batch. This module asks when such a log keeps the writers apart, so that each
batch is the whole work of the writer who flushed it.

* `batches_unmixed_iff` — every batch holds work of its own flusher only iff the buffer is
  handed over empty (`HandsOver`): once a writer goes on from where another has left work,
  no flush follows.
* `batches_whole_iff` — for writers that flush once, when their work is complete, the
  batches are even exactly the works of their flushers.
* `foldl_eq_serial` — where the works of different writers commute, what the buffer has done
  in the end is what the writers do one after another, in any order.
-/

namespace SharedBuffer

variable {A : Type}

/-- What a writer does to the buffer. -/
inductive Mark (A : Type) where
  | put (a : A)
  | flush

/-- An entry of the log: the writer and what it did. -/
abbrev Entry (A : Type) : Type := ℕ × Mark A

/-- The buffer holds work labelled with its writer. -/
abbrev Buffer (A : Type) : Type := List (ℕ × A)

/-- The batches a log publishes, each with the writer that flushed it. -/
def batches : Buffer A → List (Entry A) → List (ℕ × Buffer A)
  | _, [] => []
  | buf, (i, .put a) :: log => batches (buf ++ [(i, a)]) log
  | buf, (i, .flush) :: log => (i, buf) :: batches [] log

/-- What a log leaves in the buffer. -/
def remaining : Buffer A → List (Entry A) → Buffer A
  | buf, [] => buf
  | buf, (i, .put a) :: log => remaining (buf ++ [(i, a)]) log
  | _, (_, .flush) :: log => remaining [] log

/-- The work put by the entries of a log. -/
def puts : List (Entry A) → Buffer A
  | [] => []
  | (i, .put a) :: log => (i, a) :: puts log
  | (_, .flush) :: log => puts log

/-- The work in a buffer that is of one writer. -/
def ownWork (i : ℕ) (buf : Buffer A) : List A :=
  (buf.filter fun x => x.1 = i).map Prod.snd

/-- No entry is a flush. -/
def NoFlush (log : List (Entry A)) : Prop := ∀ i, (i, .flush) ∉ log

/-- The buffer is handed over empty: when a writer goes on from an entry of another one
that was no flush, there is no flush any more. `last` is the writer of the previous entry,
unless that was a flush. -/
def HandsOver : Option ℕ → List (Entry A) → Prop
  | _, [] => True
  | last, (i, .put _) :: log =>
      (∀ j, last = some j → j ≠ i → NoFlush log) ∧ HandsOver (some i) log
  | last, (i, .flush) :: log => (∀ j, last = some j → j = i) ∧ HandsOver none log

/-! ### Batches of a log in two parts -/

theorem batches_append (buf : Buffer A) (log₁ log₂ : List (Entry A)) :
    batches buf (log₁ ++ log₂) = batches buf log₁ ++ batches (remaining buf log₁) log₂ := by
  induction log₁ generalizing buf with
  | nil => rfl
  | cons e log₁ ih =>
      obtain ⟨i, a | _⟩ := e
      · exact ih _
      · simp only [List.cons_append, batches, remaining, ih]

/-- A batch is what the entries before some flush have left. -/
theorem mem_batches {b : ℕ × Buffer A} {log : List (Entry A)} (h : b ∈ batches [] log) :
    ∃ log₁ log₂, log = log₁ ++ (b.1, .flush) :: log₂ ∧ b.2 = remaining [] log₁ := by
  suffices hgen : ∀ buf, b ∈ batches buf log →
      ∃ log₁ log₂, log = log₁ ++ (b.1, .flush) :: log₂ ∧ b.2 = remaining buf log₁ from
    hgen [] h
  clear h
  induction log with
  | nil => simp [batches]
  | cons e log ih =>
      obtain ⟨i, a | _⟩ := e
      · intro buf h
        obtain ⟨log₁, log₂, rfl, hb⟩ := ih _ h
        exact ⟨(i, .put a) :: log₁, log₂, rfl, hb⟩
      · intro buf h
        rcases List.mem_cons.mp h with rfl | h
        · exact ⟨[], log, rfl, rfl⟩
        · obtain ⟨log₁, log₂, rfl, hb⟩ := ih _ h
          exact ⟨(i, .flush) :: log₁, log₂, rfl, hb⟩

/-- **Nothing is lost**: the work put is in the batches or still in the buffer. -/
theorem puts_conserved (buf : Buffer A) (log : List (Entry A)) :
    (batches buf log).flatMap Prod.snd ++ remaining buf log = buf ++ puts log := by
  induction log generalizing buf with
  | nil => simp [batches, remaining, puts]
  | cons e log ih =>
      obtain ⟨i, a | _⟩ := e
      · simp [batches, remaining, puts, ih]
      · simp [batches, remaining, puts, ih]

/-- The flushers of the batches have flush entries. -/
theorem flush_of_mem_batches {b : ℕ × Buffer A} {log : List (Entry A)}
    (h : b ∈ batches [] log) : (b.1, .flush) ∈ log := by
  obtain ⟨log₁, log₂, rfl, -⟩ := mem_batches h
  simp

/-! ### When batches are pure -/

/-- Without a flush there is no batch. -/
theorem NoFlush.batches_eq {log : List (Entry A)} (h : NoFlush log) (buf : Buffer A) :
    batches buf log = [] := by
  induction log generalizing buf with
  | nil => rfl
  | cons e log ih =>
      have htail : NoFlush log := fun i hi => h i (List.mem_cons_of_mem _ hi)
      obtain ⟨i, a | _⟩ := e
      · exact ih htail _
      · exact absurd List.mem_cons_self (h i)

/-- Without a flush the buffer may be handed over in any state. -/
theorem NoFlush.handsOver {log : List (Entry A)} (h : NoFlush log) (last : Option ℕ) :
    HandsOver last log := by
  induction log generalizing last with
  | nil => trivial
  | cons e log ih =>
      have htail : NoFlush log := fun i hi => h i (List.mem_cons_of_mem _ hi)
      obtain ⟨i, a | _⟩ := e
      · exact ⟨fun _ _ _ => htail, ih htail _⟩
      · exact absurd List.mem_cons_self (h i)

/-- The work of every batch is of its flusher. -/
def Unmixed (bs : List (ℕ × Buffer A)) : Prop := ∀ b ∈ bs, ∀ x ∈ b.2, x.1 = b.1

/-- A buffer with work of two writers makes the next batch impure, if there is one. -/
theorem noFlush_of_unmixed {buf : Buffer A} {log : List (Entry A)} {x y : ℕ × A}
    (hx : x ∈ buf) (hy : y ∈ buf) (hne : x.1 ≠ y.1) (h : Unmixed (batches buf log)) :
    NoFlush log := by
  induction log generalizing buf with
  | nil => simp [NoFlush]
  | cons e log ih =>
      obtain ⟨i, a | _⟩ := e
      · have hlog := ih (List.mem_append_left _ hx) (List.mem_append_left _ hy) h
        intro j hj
        rcases List.mem_cons.mp hj with heq | hj
        · cases heq
        · exact hlog j hj
      · have hb := h (i, buf) List.mem_cons_self
        exact absurd ((hb x hx).trans (hb y hy).symm) hne

/-- The buffer holds the work of the last writer, or nothing after a flush. -/
def Holds (last : Option ℕ) (buf : Buffer A) : Prop :=
  match last with
  | none => buf = []
  | some j => buf ≠ [] ∧ ∀ x ∈ buf, x.1 = j

/-- All the work in the buffer is writer `i`'s iff the last writer, if there is one, is `i`. -/
theorem Holds.forall_iff {last : Option ℕ} {buf : Buffer A} (h : Holds last buf) (i : ℕ) :
    (∀ x ∈ buf, x.1 = i) ↔ ∀ j, last = some j → j = i := by
  cases last with
  | none => simp [show buf = [] from h]
  | some j =>
      obtain ⟨hnil, hall⟩ := h
      obtain ⟨x, hx⟩ := List.exists_mem_of_ne_nil buf hnil
      constructor
      · rintro hi j' ⟨⟩
        rw [← hall x hx, hi x hx]
      · intro hi y hy
        rw [hall y hy, hi j rfl]

/-- The buffer after work of the last writer. -/
theorem Holds.put {last : Option ℕ} {buf : Buffer A} (h : Holds last buf) {i : ℕ}
    (hlast : ∀ j, last = some j → j = i) (a : A) : Holds (some i) (buf ++ [(i, a)]) := by
  refine ⟨by simp, ?_⟩
  intro x hx
  rcases List.mem_append.mp hx with hx | hx
  · exact (h.forall_iff i).mpr hlast x hx
  · rw [List.mem_singleton.mp hx]

theorem unmixed_batches_iff {last : Option ℕ} {buf : Buffer A} (hbuf : Holds last buf)
    (log : List (Entry A)) : Unmixed (batches buf log) ↔ HandsOver last log := by
  induction log generalizing last buf with
  | nil => simp [Unmixed, batches, HandsOver]
  | cons e log ih =>
      obtain ⟨i, a | _⟩ := e
      · rw [batches, HandsOver]
        by_cases hlast : ∀ j, last = some j → j = i
        · rw [ih (hbuf.put hlast a)]
          exact ⟨fun h => ⟨fun j hj hne => absurd (hlast j hj) hne, h⟩, fun h => h.2⟩
        · push Not at hlast
          obtain ⟨j, rfl, hne⟩ := hlast
          obtain ⟨hnil, hall⟩ := hbuf
          obtain ⟨x, hx⟩ := List.exists_mem_of_ne_nil buf hnil
          constructor
          · intro h
            have hno : NoFlush log :=
              noFlush_of_unmixed (x := x) (y := (i, a)) (List.mem_append_left _ hx)
                (by simp) (by rw [hall x hx]; exact hne) h
            exact ⟨fun _ _ _ => hno, hno.handsOver _⟩
          · rintro ⟨h, -⟩
            rw [(h j rfl hne).batches_eq]
            simp [Unmixed]
      · have hsplit : Unmixed (batches buf ((i, .flush) :: log)) ↔
            (∀ x ∈ buf, x.1 = i) ∧ Unmixed (batches [] log) := by
          simp [Unmixed, batches]
        have hempty : Holds none ([] : Buffer A) := rfl
        rw [hsplit, hbuf.forall_iff i, ih hempty, HandsOver]

/-- **Batches are pure iff the buffer is handed over empty.** -/
theorem batches_unmixed_iff (log : List (Entry A)) :
    Unmixed (batches [] log) ↔ HandsOver none log := by
  have hempty : Holds none ([] : Buffer A) := rfl
  exact unmixed_batches_iff hempty log

/-! ### Writers that flush their whole work at once -/

section Whole

variable {whole : ℕ → List A} {log : List (Entry A)}

/-- Every writer flushes at most once, and then it has put its whole work. -/
def Complete (whole : ℕ → List A) (log : List (Entry A)) : Prop :=
  ∀ log₁ i log₂, log = log₁ ++ (i, .flush) :: log₂ →
    ownWork i (puts log₁) = whole i ∧ (i, .flush) ∉ log₁

theorem Complete.of_append {log₁ log₂ : List (Entry A)} (h : Complete whole (log₁ ++ log₂)) :
    Complete whole log₁ := by
  rintro l i l' rfl
  exact h l i (l' ++ log₂) (by simp)

/-- Flushers are distinct. -/
theorem Complete.nodup_flushers (h : Complete whole log) :
    ((batches [] log).map Prod.fst).Nodup := by
  induction log using List.reverseRecOn with
  | nil => simp [batches]
  | append_singleton log e ih =>
      have hrest := ih h.of_append
      rw [batches_append, List.map_append]
      obtain ⟨i, a | _⟩ := e
      · simpa [batches] using hrest
      · have hfresh : i ∉ (batches [] log).map Prod.fst := by
          intro hi
          obtain ⟨b, hb, rfl⟩ := List.mem_map.mp hi
          exact (h log b.1 [] rfl).2 (flush_of_mem_batches hb)
        simpa [batches, List.nodup_append, hrest] using fun j b hb hj => hfresh (by
          rw [← hj]
          exact List.mem_map.mpr ⟨(j, b), hb, rfl⟩)

theorem ownWork_append (i : ℕ) (buf₁ buf₂ : Buffer A) :
    ownWork i (buf₁ ++ buf₂) = ownWork i buf₁ ++ ownWork i buf₂ := by
  simp [ownWork]

/-- As long as the batches are pure, a writer that flushes finds its whole work in the
buffer. -/
theorem ownWork_remaining (h : Complete whole log) {log₁ log₂ : List (Entry A)} {i : ℕ}
    (hlog : log = log₁ ++ (i, .flush) :: log₂) (hunmixed : Unmixed (batches [] log₁)) :
    ownWork i (remaining [] log₁) = whole i := by
  obtain ⟨hwork, hfirst⟩ := h log₁ i log₂ hlog
  have hnone : ownWork i ((batches [] log₁).flatMap Prod.snd) = [] := by
    simp only [ownWork, List.map_eq_nil_iff, List.filter_eq_nil_iff, decide_eq_true_eq,
      List.mem_flatMap]
    rintro x ⟨b, hb, hx⟩ rfl
    exact hfirst (hunmixed b hb x hx ▸ flush_of_mem_batches hb)
  have hcons : (batches [] log₁).flatMap Prod.snd ++ remaining [] log₁ = puts log₁ :=
    puts_conserved [] log₁
  rw [← hwork, ← hcons, ownWork_append, hnone, List.nil_append]

/-- Work that is all of one writer is its own work. -/
theorem ownWork_eq_of_forall {i : ℕ} {buf : Buffer A} (h : ∀ x ∈ buf, x.1 = i) :
    ownWork i buf = buf.map Prod.snd := by
  rw [ownWork, List.filter_eq_self.mpr fun x hx => by simpa using h x hx]

/-- A buffer no longer than the work of one writer in it holds nothing else. -/
theorem forall_of_length_le {i : ℕ} {buf : Buffer A}
    (h : buf.length ≤ (ownWork i buf).length) : ∀ x ∈ buf, x.1 = i := by
  have hlen : (buf.filter fun x => x.1 = i).length = buf.length := by
    have hle := List.length_filter_le (fun x : ℕ × A => decide (x.1 = i)) buf
    rw [ownWork, List.length_map] at h
    omega
  simpa using List.length_filter_eq_length_iff.mp hlen

/-- **Batches are whole works iff the buffer is handed over empty**, for writers that
flush once, when their work is complete. -/
theorem batches_whole_iff (h : Complete whole log) :
    (∀ b ∈ batches [] log, b.2.map Prod.snd = whole b.1) ↔ HandsOver none log := by
  rw [← batches_unmixed_iff]
  constructor
  · intro hwhole
    induction log using List.reverseRecOn with
    | nil => simp [Unmixed, batches]
    | append_singleton log e ih =>
        have hsplit := batches_append [] log [e]
        have hunmixed : Unmixed (batches [] log) := ih h.of_append fun b hb =>
          hwhole b (by rw [hsplit]; exact List.mem_append_left _ hb)
        obtain ⟨i, a | _⟩ := e
        · rw [hsplit]
          simpa [batches] using hunmixed
        · have hb := hwhole (i, remaining [] log) (by simp [hsplit, batches])
          have hown : ∀ x ∈ remaining [] log, x.1 = i := by
            have hwork := ownWork_remaining h rfl hunmixed
            have hlen : (remaining [] log).length = (whole i).length := by
              rw [← hb, List.length_map]
            refine forall_of_length_le ?_
            rw [hwork]
            omega
          rw [hsplit]
          intro b hmem
          rcases List.mem_append.mp hmem with hmem | hmem
          · exact hunmixed b hmem
          · obtain rfl : b = (i, remaining [] log) := by simpa [batches] using hmem
            exact hown
  · intro hunmixed b hb
    obtain ⟨log₁, log₂, hlog, hrem⟩ := mem_batches hb
    have hpre : Unmixed (batches [] log₁) := fun b' hb' =>
      hunmixed b' (by rw [hlog, batches_append]; exact List.mem_append_left _ hb')
    rw [← ownWork_remaining h hlog hpre, ← hrem]
    exact (ownWork_eq_of_forall (hunmixed b hb)).symm

end Whole

/-! ### Writers whose work commutes -/

section Commuting

variable {S : Type} {f : S → A → S}

theorem mem_ownWork {i : ℕ} {a : A} {buf : Buffer A} : a ∈ ownWork i buf ↔ (i, a) ∈ buf := by
  simp [ownWork]

theorem ownWork_cons (k i : ℕ) (a : A) (buf : Buffer A) :
    ownWork k ((i, a) :: buf) = (if i = k then [a] else []) ++ ownWork k buf := by
  by_cases hik : i = k <;> simp [ownWork, hik]

theorem ownWork_of_others {i : ℕ} {buf : Buffer A} (h : ∀ x ∈ buf, x.1 ≠ i) :
    ownWork i buf = [] := by
  rw [ownWork, List.filter_eq_nil_iff.mpr fun x hx => by simpa using h x hx]
  rfl

/-- The first work of a writer in a buffer: what comes before it is of others. -/
theorem exists_first {i : ℕ} {a : A} {rest : List A} {buf : Buffer A}
    (h : ownWork i buf = a :: rest) :
    ∃ buf₁ buf₂, buf = buf₁ ++ (i, a) :: buf₂ ∧ ∀ x ∈ buf₁, x.1 ≠ i := by
  obtain ⟨⟨j, b⟩, xs, hfilter, rfl, -⟩ := List.map_eq_cons_iff.mp h
  obtain ⟨buf₁, buf₂, rfl, hfront, hj, -⟩ := List.filter_eq_cons_iff.mp hfilter
  obtain rfl : j = i := by simpa using hj
  exact ⟨buf₁, buf₂, rfl, fun x hx => by simpa using hfront x hx⟩

/-- Work may come before all that it commutes with. -/
theorem foldl_move {x : ℕ × A} {buf₁ : Buffer A}
    (hcomm : ∀ y ∈ buf₁, ∀ s, f (f s y.2) x.2 = f (f s x.2) y.2) (buf₂ : Buffer A) (s : S) :
    ((buf₁ ++ x :: buf₂).map Prod.snd).foldl f s =
      ((buf₁ ++ buf₂).map Prod.snd).foldl f (f s x.2) := by
  induction buf₁ generalizing s with
  | nil => rfl
  | cons y buf₁ ih =>
      have hrest := ih (fun z hz => hcomm z (List.mem_cons_of_mem _ hz)) (f s y.2)
      rw [hcomm y List.mem_cons_self] at hrest
      exact hrest

/-- **Only the order of each writer's own work counts**, where the works of different writers
commute. The induction is on one buffer; the first work in it is moved to the front of the
other. -/
theorem foldl_eq_of_ownWork {buf buf' : Buffer A} (hown : ∀ i, ownWork i buf = ownWork i buf')
    (hcomm : ∀ x ∈ buf, ∀ y ∈ buf, x.1 ≠ y.1 → ∀ s, f (f s x.2) y.2 = f (f s y.2) x.2) (s : S) :
    (buf.map Prod.snd).foldl f s = (buf'.map Prod.snd).foldl f s := by
  induction buf generalizing buf' s with
  | nil =>
      obtain rfl : buf' = [] := by
        refine List.eq_nil_iff_forall_not_mem.mpr fun x hx => ?_
        have hmem := mem_ownWork.mpr hx
        rw [← hown] at hmem
        exact List.not_mem_nil hmem
      rfl
  | cons x buf ih =>
      obtain ⟨i, a⟩ := x
      have hfirst : ownWork i buf' = a :: ownWork i buf := by
        rw [← hown, ownWork_cons, if_pos rfl]
        rfl
      obtain ⟨buf₁, buf₂, rfl, hothers⟩ := exists_first hfirst
      have hrest : ∀ k, ownWork k buf = ownWork k (buf₁ ++ buf₂) := by
        intro k
        have hk := hown k
        rw [ownWork_cons, ownWork_append, ownWork_cons] at hk
        rw [ownWork_append]
        by_cases hik : i = k
        · subst hik
          rw [ownWork_of_others hothers] at hk ⊢
          exact List.append_cancel_left hk
        · simpa [hik] using hk
      have hmove : ∀ y ∈ buf₁, ∀ s, f (f s y.2) a = f (f s a) y.2 := by
        intro y hy
        have hmem : y ∈ (i, a) :: buf := by
          rw [← mem_ownWork, hown, mem_ownWork]
          exact List.mem_append_left _ hy
        exact hcomm y hmem (i, a) List.mem_cons_self (hothers y hy)
      rw [foldl_move hmove]
      exact ih hrest (fun y hy z hz => hcomm y (List.mem_cons_of_mem _ hy) z
        (List.mem_cons_of_mem _ hz)) (f s a)

/-- The writers put their work one after another. -/
def serial (work : ℕ → List A) (order : List ℕ) : Buffer A :=
  order.flatMap fun i => (work i).map fun a => (i, a)

theorem map_snd_serial (work : ℕ → List A) (order : List ℕ) :
    (serial work order).map Prod.snd = order.flatMap work := by
  simp [serial, List.map_flatMap, Function.comp_def]

theorem ownWork_serial {work : ℕ → List A} {order : List ℕ} (h : order.Nodup) (k : ℕ) :
    ownWork k (serial work order) = if k ∈ order then work k else [] := by
  induction order with
  | nil => rfl
  | cons i order ih =>
      obtain ⟨hi, hrest⟩ := List.nodup_cons.mp h
      have hsplit : serial work (i :: order) =
          ((work i).map fun a => (i, a)) ++ serial work order := rfl
      rw [hsplit, ownWork_append, ih hrest]
      by_cases hik : i = k
      · subst hik
        simp [hi, ownWork, List.filter_map, Function.comp_def]
      · have hne : k ≠ i := Ne.symm hik
        simp [hik, hne, ownWork, List.filter_map, Function.comp_def]

/-- **Writers whose works commute are serial**, in any order in which each takes part once. -/
theorem foldl_eq_serial {buf : Buffer A} {work : ℕ → List A} {order : List ℕ} (h : order.Nodup)
    (hown : ∀ i, ownWork i buf = if i ∈ order then work i else [])
    (hcomm : ∀ x ∈ buf, ∀ y ∈ buf, x.1 ≠ y.1 → ∀ s, f (f s x.2) y.2 = f (f s y.2) x.2) (s : S) :
    (buf.map Prod.snd).foldl f s = (order.flatMap work).foldl f s := by
  rw [← map_snd_serial]
  exact foldl_eq_of_ownWork (fun i => (hown i).trans (ownWork_serial h i).symm) hcomm s

end Commuting

end SharedBuffer
