import PixelRecord.Edit

/-!
The reasoning kit for calls that work on a buffer in place.

`Edit.on` says exactly what a call does, which is more than a proof wants to
carry through a loop. This layer has three weaker judgments. `Ends` says that a
call succeeds and what then holds; its rules follow the program step by step.
`Acts` says what a call does to a *region* of every buffer of a size: it changes
no byte elsewhere, and what it does there can be read off the region alone. Two
such calls on regions without a common byte do not see each other, so `Acts` has
a rule for loops in which every step is described by itself, on the buffer from
before the loop, and in which the order of the steps plays no part. `Orderly` is
what every call owes its caller, whether it succeeds or not.
-/

namespace PixelRecord.Edit

variable {α β : Type} {buf : Bytes}

@[simp] theorem on_liftM (x : Except Failure α) : (liftM x : Edit α).on buf = (x, buf) := rfl

/-- Asking for the size of the buffer has no effect of its own. -/
@[simp] theorem on_size_bind (k : Nat → Edit β) : (size >>= k).on buf = (k buf.size).on buf := rfl

/-- A computation of two parts succeeds only if both do. -/
theorem bind_eq_ok {ε : Type} {x : Except ε α} {k : α → Except ε β} {b : β}
    (h : x >>= k = .ok b) : ∃ a, x = .ok a ∧ k a = .ok b := by
  cases x with
  | error e => cases h
  | ok a => exact ⟨a, rfl, h⟩

theorem bind_eq_error {ε : Type} {x : Except ε α} {k : α → Except ε β} {e : ε}
    (h : x >>= k = .error e) : x = .error e ∨ ∃ a, x = .ok a ∧ k a = .error e := by
  cases x with
  | error e' =>
    cases h
    exact .inl rfl
  | ok a => exact .inr ⟨a, rfl, h⟩

theorem ok_bind {ε : Type} (a : α) (k : α → Except ε β) : (Except.ok a >>= k) = k a := rfl

theorem liftM_ok_bind (a : α) (k : α → Edit β) :
    ((liftM (Except.ok a : Except Failure α) : Edit α) >>= k) = k a := rfl

theorem mapM_eq_ok {ε : Type} {k : α → Except ε β} {g : α → β} {steps : List α}
    (h : ∀ a ∈ steps, k a = .ok (g a)) : steps.mapM k = .ok (steps.map g) := by
  induction steps with
  | nil => rfl
  | cons a rest ih =>
      rw [List.mapM_cons, h a List.mem_cons_self, ih fun b hb => h b (List.mem_cons_of_mem _ hb)]
      rfl

theorem forM_eq_ok {ε : Type} {k : α → Except ε Unit} {steps : List α}
    (h : steps.forM k = .ok ()) : ∀ a ∈ steps, k a = .ok () := by
  induction steps with
  | nil => exact fun a ha => by cases ha
  | cons first rest ih =>
      obtain ⟨⟨⟩, hfirst, hrest⟩ := bind_eq_ok h
      intro a ha
      rcases List.mem_cons.mp ha with rfl | ha
      · exact hfirst
      · exact ih hrest a ha

theorem forM_congr {ι : Type} {steps : List ι} {k k' : ι → Edit Unit}
    (h : ∀ i ∈ steps, k i = k' i) : steps.forM k = steps.forM k' := by
  induction steps with
  | nil => rfl
  | cons first rest ih =>
      show (k first >>= fun _ => rest.forM k) = (k' first >>= fun _ => rest.forM k')
      rw [h first List.mem_cons_self, ih fun i hi => h i (List.mem_cons_of_mem _ hi)]

/-! ### Calls that succeed -/

/-- Started on `buf` the call succeeds, and its answer and the buffer after it
are as `post` says. -/
def Ends (e : Edit α) (buf : Bytes) (post : α → Bytes → Prop) : Prop :=
  ∃ a out, e.on buf = (.ok a, out) ∧ post a out

section Ends

variable {e : Edit α} {k : α → Edit β} {post mid : α → Bytes → Prop} {final : β → Bytes → Prop}

/-- A call has one outcome, so what is said of all outcomes holds of the one at
hand. -/
theorem Ends.of_on (h : e.Ends buf post) {a : α} {out : Bytes} (hon : e.on buf = (.ok a, out)) :
    post a out := by
  obtain ⟨a', out', hon', hpost⟩ := h
  rw [hon] at hon'
  cases hon'
  exact hpost

theorem Ends.mono (h : e.Ends buf mid) (himp : ∀ a out, mid a out → post a out) :
    e.Ends buf post := by
  obtain ⟨a, out, hon, hmid⟩ := h
  exact ⟨a, out, hon, himp a out hmid⟩

theorem ends_pure {a : α} (h : post a buf) : (pure a : Edit α).Ends buf post :=
  ⟨a, buf, rfl, h⟩

theorem Ends.bind (h : e.Ends buf mid) (hk : ∀ a out, mid a out → (k a).Ends out final) :
    (e >>= k).Ends buf final := by
  obtain ⟨a, out, hon, hmid⟩ := h
  obtain ⟨b, last, hon', hfinal⟩ := hk a out hmid
  refine ⟨b, last, ?_, hfinal⟩
  rw [on_bind, hon]
  exact hon'

theorem ends_get_bind {k : Bytes → Edit β} (h : (k buf).Ends buf final) :
    (get >>= k).Ends buf final := h

theorem ends_liftM_bind {x : Except Failure α} {a : α} (hx : x = .ok a)
    (h : (k a).Ends buf final) : ((liftM x : Edit α) >>= k).Ends buf final := by
  subst hx
  exact h

theorem ends_require_bind {check : Except Error Unit} {k : Unit → Edit β} (hc : check = .ok ())
    (h : (k ()).Ends buf final) : (require check >>= k).Ends buf final := by
  subst hc
  exact h

end Ends

/-! ### What a call answers -/

/-- Wherever the call succeeds, its answer is as `p` says. -/
def Answers (e : Edit α) (p : α → Prop) : Prop := ∀ ⦃buf a out⦄, e.on buf = (.ok a, out) → p a

section Answers

variable {e : Edit α} {k k' : α → Edit β} {p : α → Prop} {q : β → Prop}

theorem answers_any : e.Answers fun _ => True := fun _ _ _ _ => trivial

theorem answers_pure {a : α} (h : p a) : (pure a : Edit α).Answers p := by
  rintro buf b out ⟨⟩
  exact h

theorem answers_liftM {x : Except Failure α} (h : ∀ a, x = .ok a → p a) :
    (liftM x : Edit α).Answers p := by
  intro buf a out hon
  rw [on_liftM] at hon
  exact h a (Prod.mk.inj hon).1

theorem Answers.bind (h : e.Answers p) (hk : ∀ a, p a → (k a).Answers q) :
    (e >>= k).Answers q := by
  intro buf b out hon
  rw [on_bind] at hon
  rcases he : e.on buf with ⟨_ | a, mid⟩
  · rw [he] at hon
    cases hon
  · rw [he] at hon
    exact hk a (h he) hon

/-- Calls that go on alike after every answer are the same call. -/
theorem Answers.bind_congr (h : e.Answers p) (hk : ∀ a, p a → k a = k' a) :
    (e >>= k) = (e >>= k') := by
  funext buf
  show (e >>= k).on buf = (e >>= k').on buf
  rw [on_bind, on_bind]
  rcases he : e.on buf with ⟨_ | a, mid⟩
  · rfl
  · show (k a).on mid = (k' a).on mid
    rw [hk a (h he)]

theorem get_bind_congr {k k' : Bytes → Edit β} (hk : ∀ buf, k buf = k' buf) :
    (get >>= k) = (get >>= k') := by
  rw [funext hk]

theorem on_map_congr {e e' : Edit α} (h : e.on buf = e'.on buf) (g : α → β) :
    (do return g (← e) : Edit β).on buf = (do return g (← e') : Edit β).on buf := by
  rw [on_bind, on_bind, h]

/-- What is done behind a contract check matters only where the check lets it. -/
theorem on_require_bind_congr {check : Except Error Unit} {k k' : Unit → Edit β}
    (h : check = .ok () → (k ()).on buf = (k' ()).on buf) :
    (require check >>= k).on buf = (require check >>= k').on buf := by
  rcases check with err | ⟨⟩
  · rfl
  · exact h rfl

end Answers

/-! ### Calls on a region -/

/-- Two buffers with the same bytes in a region. -/
def AgreeOn (region : Nat → Prop) (a b : Bytes) : Prop := ∀ j, region j → a[j]? = b[j]?

section AgreeOn

variable {region region' : Nat → Prop} {a b c : Bytes}

theorem AgreeOn.refl : AgreeOn region a a := fun _ _ => rfl

theorem AgreeOn.symm (h : AgreeOn region a b) : AgreeOn region b a := fun j hj => (h j hj).symm

theorem AgreeOn.trans (h : AgreeOn region a b) (h' : AgreeOn region b c) : AgreeOn region a c :=
  fun j hj => (h j hj).trans (h' j hj)

theorem AgreeOn.mono (h : AgreeOn region a b) (hsub : ∀ j, region' j → region j) :
    AgreeOn region' a b := fun j hj => h j (hsub j hj)

/-- Buffers that agree in a region and outside it are equal. -/
theorem eq_of_agreeOn (h : AgreeOn region a b) (h' : AgreeOn (fun j => ¬ region j) a b) :
    a = b := by
  apply Array.ext_getElem?
  intro j
  by_cases hj : region j
  · exact h j hj
  · exact h' j hj

end AgreeOn

/-- A relation between buffers that looks at the bytes of a region only. -/
def LooksAt (region : Nat → Prop) (post : Bytes → Bytes → Prop) : Prop :=
  ∀ a b a' b', AgreeOn region a a' → AgreeOn region b b' → post a b → post a' b'

/-- On every buffer of `size` bytes the call succeeds, leaves the bytes outside
the region as they were, and relates the region before it to the region after
it as `post` says. -/
structure Acts (e : Edit Unit) (size : Nat) (region : Nat → Prop)
    (post : Bytes → Bytes → Prop) : Prop where
  looksAt : LooksAt region post
  ends : ∀ buf : Bytes, buf.size = size → e.Ends buf fun _ out =>
    out.size = size ∧ AgreeOn (fun j => ¬ region j) out buf ∧ post buf out

section Acts

variable {size : Nat} {e e' : Edit Unit} {region region' : Nat → Prop}
  {post post' : Bytes → Bytes → Prop}

/-- What is known of a region may be restated for a larger one, of which the rest
has not changed. -/
theorem Acts.mono (h : e.Acts size region post) (hlooks : LooksAt region' post')
    (hsub : ∀ j, region j → region' j)
    (himp : ∀ a b, AgreeOn (fun j => ¬ region j) b a → post a b → post' a b) :
    e.Acts size region' post' := by
  refine ⟨hlooks, fun buf hbuf => (h.ends buf hbuf).mono fun _ out ⟨hsize, hframe, hpost⟩ => ?_⟩
  exact ⟨hsize, hframe.mono fun j hj hr => hj (hsub j hr), himp buf out hframe hpost⟩

theorem acts_pure (hlooks : LooksAt region post) (h : ∀ buf, post buf buf) :
    (pure () : Edit Unit).Acts size region post :=
  ⟨hlooks, fun buf hbuf => ends_pure ⟨hbuf, .refl, h buf⟩⟩

/-- A computation that succeeds may be done beforehand. -/
theorem Acts.of_ok {x : Except Failure α} {a : α} {k : α → Edit Unit} (hx : x = .ok a)
    (h : (k a).Acts size region post) : ((liftM x : Edit α) >>= k).Acts size region post := by
  subst hx
  exact h

/-- So may asking for the size of the buffer, which is known. -/
theorem Acts.of_size {k : Nat → Edit Unit} (h : (k size).Acts size region post) :
    (Edit.size >>= k).Acts size region post where
  looksAt := h.looksAt
  ends buf hbuf := by
    subst hbuf
    exact h.ends buf rfl

/-- Calls on separate regions, one after the other, are both as they would be
on the first buffer. -/
theorem Acts.seq (h : e.Acts size region post) (h' : e'.Acts size region' post')
    (hsep : ∀ j, region j → ¬ region' j) :
    (e >>= fun _ => e').Acts size (fun j => region j ∨ region' j)
      (fun a b => post a b ∧ post' a b) where
  looksAt a b a' b' ha hb hpost :=
    ⟨h.looksAt a b a' b' (ha.mono fun _ => .inl) (hb.mono fun _ => .inl) hpost.1,
      h'.looksAt a b a' b' (ha.mono fun _ => .inr) (hb.mono fun _ => .inr) hpost.2⟩
  ends buf hbuf := by
    apply (h.ends buf hbuf).bind
    rintro _ mid ⟨hmid, hframe, hpost⟩
    apply (h'.ends mid hmid).mono
    rintro _ out ⟨hout, hframe', hpost'⟩
    -- The second call leaves the region of the first one as it was, and found its own
    -- region as it was before the first one.
    refine ⟨hout, ?_, ?_, ?_⟩
    · exact (hframe'.mono fun j hj hr => hj (.inr hr)).trans
        (hframe.mono fun j hj hr => hj (.inl hr))
    · exact h.looksAt _ _ _ _ .refl (hframe'.mono hsep).symm hpost
    · exact h'.looksAt _ _ _ _ (hframe.mono fun j hj hr => hsep j hr hj) .refl hpost'

/-- Calls on the same region, one after the other. -/
theorem Acts.comp {post'' : Bytes → Bytes → Prop} (h : e.Acts size region post)
    (h' : e'.Acts size region post') (hlooks : LooksAt region post'')
    (hpost : ∀ a mid b, post a mid → post' mid b → post'' a b) :
    (e >>= fun _ => e').Acts size region post'' where
  looksAt := hlooks
  ends buf hbuf := by
    apply (h.ends buf hbuf).bind
    rintro _ mid ⟨hmid, hframe, hfirst⟩
    apply (h'.ends mid hmid).mono
    rintro _ out ⟨hout, hframe', hsecond⟩
    exact ⟨hout, hframe'.trans hframe, hpost buf mid out hfirst hsecond⟩

/-- Calls on the same region are one call, if what they are known to leave there leaves no
choice. -/
theorem Acts.on_eq {buf : Bytes} (h : e.Acts buf.size region post)
    (h' : e'.Acts buf.size region post')
    (hunique : ∀ out out', out.size = buf.size → out'.size = buf.size →
      post buf out → post' buf out' → AgreeOn region out out') : e.on buf = e'.on buf := by
  obtain ⟨⟨⟩, out, hon, hsize, hframe, hpost⟩ := h.ends buf rfl
  obtain ⟨⟨⟩, out', hon', hsize', hframe', hpost'⟩ := h'.ends buf rfl
  have hsame := hunique out out' hsize hsize' hpost hpost'
  rw [hon, hon', eq_of_agreeOn hsame (hframe.trans hframe'.symm)]

/-- **The loop rule.** In a loop whose steps act on regions without a common
byte, every step does what it would do alone. -/
theorem Acts.forM {ι : Type} {steps : List ι} {k : ι → Edit Unit} {region : ι → Nat → Prop}
    {post : ι → Bytes → Bytes → Prop}
    (hsep : steps.Pairwise fun i i' => ∀ j, region i j → ¬ region i' j)
    (h : ∀ i ∈ steps, (k i).Acts size (region i) (post i)) :
    (steps.forM k).Acts size (fun j => ∃ i ∈ steps, region i j)
      (fun a b => ∀ i ∈ steps, post i a b) := by
  induction steps with
  | nil => exact acts_pure (fun _ _ _ _ _ _ _ _ hi => by cases hi) (fun _ _ hi => by cases hi)
  | cons first rest ih =>
      obtain ⟨hfirst, hrest⟩ := List.pairwise_cons.mp hsep
      have hseq := (h first List.mem_cons_self).seq
        (ih hrest fun i hi => h i (List.mem_cons_of_mem _ hi))
        (fun j hj ⟨i, hi, hj'⟩ => hfirst i hi j hj hj')
      refine hseq.mono ?_ ?_ ?_
      · intro a b a' b' ha hb hpost i hi
        exact (h i hi).looksAt a b a' b' (ha.mono fun _ hj => ⟨i, hi, hj⟩)
          (hb.mono fun _ hj => ⟨i, hi, hj⟩) (hpost i hi)
      · rintro j (hj | ⟨i, hi, hj⟩)
        · exact ⟨first, List.mem_cons_self, hj⟩
        · exact ⟨i, List.mem_cons_of_mem _ hi, hj⟩
      · intro a b _ ⟨hpost, hposts⟩ i hi
        rcases List.mem_cons.mp hi with rfl | hi
        · exact hpost
        · exact hposts i hi

end Acts

/-! ### Writing bytes -/

theorem getElem?_overwrite {start : Nat} {bytes : List UInt8}
    (h : start + bytes.length ≤ buf.size) (j : Nat) :
    (overwrite buf start bytes)[j]? =
      if start ≤ j ∧ j < start + bytes.length then bytes[j - start]? else buf[j]? := by
  induction bytes generalizing buf start with
  | nil =>
      rw [if_neg (by simp)]
      rfl
  | cons b rest ih =>
      rw [List.length_cons] at h
      rw [overwrite, ih (by rw [Array.size_setIfInBounds]; omega), List.length_cons]
      -- The first byte is written before the others, which all lie behind it.
      by_cases hfirst : start = j
      · subst hfirst
        rw [if_neg (by omega), if_pos (by omega), Nat.sub_self, List.getElem?_cons_zero,
          Array.getElem?_setIfInBounds_self_of_lt (by omega)]
      · rw [Array.getElem?_setIfInBounds_ne hfirst]
        by_cases hrest : start + 1 ≤ j ∧ j < start + 1 + rest.length
        · obtain ⟨k, rfl⟩ : ∃ k, j = start + 1 + k := ⟨j - (start + 1), by omega⟩
          rw [if_pos hrest, if_pos (by omega), Nat.add_sub_cancel_left,
            show start + 1 + k - start = k + 1 by omega, List.getElem?_cons_succ]
        · rw [if_neg hrest, if_neg (by omega)]

theorem acts_write {size start : Nat} {bytes : List UInt8} (h : start + bytes.length ≤ size) :
    (write start bytes).Acts size (fun j => start ≤ j ∧ j < start + bytes.length)
      (fun _ out => ∀ k < bytes.length, out[start + k]? = bytes[k]?) where
  looksAt a b a' b' _ hb hpost k hk := by
    rw [← hpost k hk]
    exact (hb (start + k) ⟨by omega, by omega⟩).symm
  ends buf hbuf := by
    subst hbuf
    refine ⟨(), _, by rw [on_write, if_pos h], size_overwrite .., fun j hj => ?_, fun k hk => ?_⟩
    · rw [getElem?_overwrite h, if_neg hj]
    · rw [getElem?_overwrite h, if_pos ⟨by omega, by omega⟩, Nat.add_sub_cancel_left]

/-! ### Parts of a buffer -/

theorem getElem?_extract_of_lt {start stop j : Nat} (hj : j < stop - start) :
    (buf.extract start stop)[j]? = buf[start + j]? := by
  rw [Array.getElem?_extract]
  split
  · rfl
  · rw [Array.getElem?_eq_none (by omega)]

/-- A buffer with another part between `start` and `stop`, byte by byte. -/
theorem getElem?_splice {part : Bytes} {start stop : Nat} (h : start ≤ stop)
    (hstop : stop ≤ buf.size) (hpart : part.size = stop - start) (j : Nat) :
    (buf.extract 0 start ++ part ++ buf.extract stop buf.size)[j]? =
      if start ≤ j ∧ j < stop then part[j - start]? else buf[j]? := by
  have hfront : (buf.extract 0 start).size = start := by
    rw [Array.size_extract]
    omega
  have hboth : (buf.extract 0 start ++ part).size = stop := by
    rw [Array.size_append, hfront, hpart]
    omega
  rw [Array.getElem?_append, hboth, Array.getElem?_append, hfront]
  by_cases hlow : j < start
  · rw [if_pos (by omega), if_pos hlow, if_neg (by omega), getElem?_extract_of_lt (by omega),
      Nat.zero_add]
  · by_cases hmid : j < stop
    · rw [if_pos hmid, if_neg hlow, if_pos ⟨by omega, hmid⟩]
    · rw [if_neg hmid, if_neg (by omega)]
      by_cases hj : j < buf.size
      · rw [getElem?_extract_of_lt (by omega), Nat.add_sub_cancel' (by omega)]
      · have hsize : (buf.extract stop buf.size).size ≤ j - stop := by
          rw [Array.size_extract]
          omega
        rw [Array.getElem?_eq_none hsize, Array.getElem?_eq_none (by omega)]

theorem on_within (start stop : Nat) (e : Edit α) :
    (within start stop e).on buf =
      ((e.on (buf.extract start stop)).1,
        buf.extract 0 start ++ (e.on (buf.extract start stop)).2 ++ buf.extract stop buf.size) :=
  rfl

theorem agreeOn_extract {region : Nat → Prop} {start stop : Nat} {a b : Bytes}
    (hregion : ∀ j, region j → j < stop - start)
    (h : AgreeOn (fun j => start ≤ j ∧ region (j - start)) a b) :
    AgreeOn region (a.extract start stop) (b.extract start stop) := by
  intro j hj
  rw [getElem?_extract_of_lt (hregion j hj), getElem?_extract_of_lt (hregion j hj)]
  exact h (start + j) ⟨Nat.le_add_right .., by rwa [Nat.add_sub_cancel_left]⟩

/-- A call that acts on a region of a part acts on the same bytes of the whole. -/
theorem Acts.within {e : Edit Unit} {size start stop : Nat} {region : Nat → Prop}
    {post : Bytes → Bytes → Prop} (h : e.Acts (stop - start) region post) (hle : start ≤ stop)
    (hstop : stop ≤ size) (hregion : ∀ j, region j → j < stop - start) :
    (within start stop e).Acts size (fun j => start ≤ j ∧ region (j - start))
      (fun a b => post (a.extract start stop) (b.extract start stop)) where
  looksAt a b a' b' ha hb hpost :=
    h.looksAt _ _ _ _ (agreeOn_extract hregion ha) (agreeOn_extract hregion hb) hpost
  ends buf hbuf := by
    have hpart : (buf.extract start stop).size = stop - start := by
      rw [Array.size_extract]
      omega
    obtain ⟨a, out, hon, hsize, hframe, hpost⟩ := h.ends _ hpart
    have hget := getElem?_splice hle (hbuf ▸ hstop) hsize
    refine ⟨a, _, by rw [on_within, hon], ?_, ?_, ?_⟩
    · simp only [Array.size_append, Array.size_extract, hsize]
      omega
    · intro j hj
      rw [hget]
      split
      · next hin =>
        rw [hframe _ fun hr => hj ⟨hin.1, hr⟩, getElem?_extract_of_lt (by omega),
          Nat.add_sub_cancel' hin.1]
      · rfl
    · refine h.looksAt _ _ _ _ .refl (fun j hj => ?_) hpost
      have hlt := hregion j hj
      rw [getElem?_extract_of_lt hlt, hget, if_pos (by omega), Nat.add_sub_cancel_left]

/-- The bytes from `start` on, byte by byte. -/
theorem getElem?_extract_size (buf : Bytes) (start j : Nat) :
    (buf.extract start buf.size)[j]? = buf[start + j]? := by
  by_cases hj : j < buf.size - start
  · exact getElem?_extract_of_lt hj
  · rw [Array.getElem?_eq_none (by rw [Array.size_extract]; omega),
      Array.getElem?_eq_none (by omega)]

/-- Nothing lies behind the part that goes on to the end. -/
theorem on_beyond (start : Nat) (e : Edit α) :
    (beyond start e).on buf = (within start buf.size e).on buf := by
  have hrest : buf.extract buf.size buf.size = #[] :=
    Array.extract_empty_of_stop_le_start (Nat.le_refl _)
  rw [on_within, hrest, Array.append_empty]
  rfl

/-! ### What a call owes its caller -/

/-- On `buf` the call does not run into a fault, leaves as many bytes as there
were, and if it is refused leaves every byte as it was. -/
def Orderly (e : Edit α) (buf : Bytes) : Prop :=
  match e.on buf with
  | (.ok _, out) => out.size = buf.size
  | (.error (.refused _), out) => out = buf
  | (.error (.fault _), _) => False

section Orderly

variable {e : Edit α} {k : Unit → Edit β}

theorem Ends.orderly (h : e.Ends buf fun _ out => out.size = buf.size) : e.Orderly buf := by
  obtain ⟨a, out, hon, hsize⟩ := h
  rw [Orderly, hon]
  exact hsize

theorem orderly_refuse (err : Error) : (refuse err : Edit α).Orderly buf := rfl

theorem Orderly.map {e : Edit α} (h : e.Orderly buf) (g : α → β) :
    (do return g (← e) : Edit β).Orderly buf := by
  unfold Orderly at h ⊢
  rw [on_bind]
  rcases hon : e.on buf with ⟨(err | flt) | a, out⟩ <;> (rw [hon] at h; exact h)

theorem orderly_get_bind {k : Bytes → Edit β} (h : (k buf).Orderly buf) :
    (get >>= k).Orderly buf := h

/-- A contract check leaves the rest to be looked at on buffers that pass it. -/
theorem orderly_require_bind {check : Except Error Unit}
    (h : check = .ok () → (k ()).Orderly buf) : (require check >>= k).Orderly buf := by
  rcases check with err | ⟨⟩
  · exact orderly_refuse err
  · exact h rfl

/-- A call that acts on a region of buffers of this size is orderly. -/
theorem Acts.orderly {e : Edit Unit} {region : Nat → Prop} {post : Bytes → Bytes → Prop}
    (h : e.Acts buf.size region post) : e.Orderly buf :=
  ((h.ends buf rfl).mono fun _ _ hout => hout.1).orderly

end Orderly

end PixelRecord.Edit
