import Athera.Binfmt.Route

/-!
# Quoting on the interpreter line

What `shebang_split` returns for a line whose tokens are written with quotes and escapes.
-/

namespace Athera

open List

namespace Utf8

def encode (token : List Char) : List UInt8 := token.flatMap String.utf8EncodeChar

theorem isContinuation_ofNat (n : Nat) : isContinuation (UInt8.ofNat (n%64+128)) = true := by
  simp only [isContinuation,UInt8.le_iff_toNat_le,UInt8.toNat_ofNat',UInt8.reduceToNat,
    Bool.and_eq_true,decide_eq_true_eq]
  omega

theorem secondOk_ofNat {m n : Nat} (hm : m < 256)
    (h : (m = 0xe0 → 32 ≤ n%64) ∧ (m = 0xed → n%64 < 32) ∧ (m = 0xf0 → 16 ≤ n%64) ∧
      (m = 0xf4 → n%64 < 16)) : secondOk (UInt8.ofNat m) (UInt8.ofNat (n%64+128)) = true := by
  simp only [secondOk,isContinuation_ofNat,UInt8.le_iff_toNat_le,UInt8.toNat_ofNat',
    UInt8.reduceToNat,← UInt8.toNat_inj]
  split_ifs <;> simp only [Bool.and_eq_true,decide_eq_true_eq] <;> omega

theorem width_ofNat {n w : Nat} (h : n < 245)
    (hw : n < 128 ∧ w = 1 ∨ 194 ≤ n ∧ n < 224 ∧ w = 2 ∨ 224 ≤ n ∧ n < 240 ∧ w = 3 ∨
      240 ≤ n ∧ w = 4) : width (UInt8.ofNat n) = w := by
  simp only [width,UInt8.lt_iff_toNat_lt,UInt8.toNat_ofNat',UInt8.reduceToNat]
  split_ifs <;> omega

theorem front_utf8EncodeChar (c : Char) (rest : List UInt8) :
    ∃ b tail, String.utf8EncodeChar c = b::tail ∧ front b (tail++rest) = (true, tail.length+1) := by
  have hv : c.val.toNat < 0xd800 ∨ 0xdfff < c.val.toNat ∧ c.val.toNat < 0x110000 := c.valid
  rw [String.utf8EncodeChar]
  generalize c.val.toNat = v at hv
  by_cases h1 : v ≤ 127
  · refine ⟨_,_,if_pos h1,?_⟩
    have hw : width (UInt8.ofNat v) = 1 := width_ofNat (by omega) (by omega)
    simp only [front,hw]
    rfl
  by_cases h2 : v ≤ 2047
  · refine ⟨_,_,(if_neg h1).trans (if_pos h2),?_⟩
    have hw : width (UInt8.ofNat (v/64%32+192)) = 2 := width_ofNat (by omega) (by omega)
    have hs := @secondOk_ofNat (v/64%32+192) v (by omega) (by omega)
    simp only [cons_append,front,hw,hs]
    rfl
  by_cases h3 : v ≤ 65535
  · refine ⟨_,_,((if_neg h1).trans (if_neg h2)).trans (if_pos h3),?_⟩
    have hw : width (UInt8.ofNat (v/4096%16+224)) = 3 := width_ofNat (by omega) (by omega)
    have hs := @secondOk_ofNat (v/4096%16+224) (v/64) (by omega) (by omega)
    simp only [cons_append,front,hw,hs,isContinuation_ofNat]
    rfl
  · refine ⟨_,_,((if_neg h1).trans (if_neg h2)).trans (if_neg h3),?_⟩
    have hw : width (UInt8.ofNat (v/262144%8+240)) = 4 := width_ofNat (by omega) (by omega)
    have hs := @secondOk_ofNat (v/262144%8+240) (v/4096) (by omega) (by omega)
    simp only [cons_append,front,hw,hs,isContinuation_ofNat]
    rfl

theorem encode_ne_nil {token : List Char} (h : token ≠ []) : encode token ≠ [] := by
  obtain ⟨c,cs,rfl⟩ := exists_cons_of_ne_nil h
  obtain ⟨b,tail,hc,_⟩ := front_utf8EncodeChar c []
  simp [encode]

theorem fromUtf8Lossy_encode (token : List Char) : fromUtf8Lossy (encode token) = encode token := by
  suffices ∀ fuel, (encode token).length ≤ fuel → lossyLoop fuel (encode token) = encode token from
    this _ le_rfl
  induction token with
  | nil =>
    intro fuel _
    cases fuel <;> rfl
  | cons c cs ih =>
    intro fuel hfuel
    obtain ⟨b,tail,hc,hfront⟩ := front_utf8EncodeChar c (encode cs)
    have henc : encode (c::cs) = b::(tail++encode cs) := by
      rw [encode,flatMap_cons,hc]
      rfl
    rw [henc,length_cons,length_append] at hfuel
    obtain ⟨n,rfl⟩ := Nat.exists_eq_add_of_le' (show 1 ≤ fuel by omega)
    rw [henc,lossyLoop,hfront]
    simp only [take_succ_cons,drop_succ_cons,take_left,drop_left]
    rw [ih n (by omega)]
    rfl

end Utf8

namespace Shebang

def escape (special : List UInt8) (b : UInt8) : List UInt8 :=
  if b ∈ special then [backslash,b] else [b]

/-- A part of a written token: quoted, or one byte without quotes. -/
inductive Piece where
  | single (bytes : List UInt8) (unquoted : singleQuote ∉ bytes)
  | double (bytes : List UInt8)
  | bare (b : UInt8)

def Piece.text : Piece → List UInt8
  | single bytes _ => bytes
  | double bytes => bytes
  | bare b => [b]

def Piece.write : Piece → List UInt8
  | single bytes _ => singleQuote :: (bytes ++ [singleQuote])
  | double bytes => doubleQuote :: (bytes.flatMap (escape [backslash,doubleQuote]) ++ [doubleQuote])
  | bare b => escape [space,tab,singleQuote,doubleQuote,backslash] b

/-- The bytes that do not end the line. -/
def OneLine (bytes : List UInt8) : Prop := newline ∉ bytes ∧ carriageReturn ∉ bytes

def Blanks (bytes : List UInt8) : Prop := ∀ b ∈ bytes, b = space ∨ b = tab

/-- A token, a way to write it, and the blanks behind it. -/
structure Word where
  token : List Char
  nonempty : token ≠ []
  oneLine : OneLine (Utf8.encode token)
  pieces : List Piece
  text : pieces.flatMap Piece.text = Utf8.encode token
  gap : List UInt8
  blanks : Blanks gap

def Word.write (w : Word) : List UInt8 := w.pieces.flatMap Piece.write ++ w.gap

variable {out : List (List UInt8)} {buf bytes rest : List UInt8} {started : Bool} {b : UInt8}

theorem oneLine_cons (h : OneLine (b::bytes)) :
    b ≠ newline ∧ b ≠ carriageReturn ∧ OneLine bytes := by
  simp only [OneLine,mem_cons,not_or] at h ⊢
  exact ⟨Ne.symm h.1.1,Ne.symm h.2.1,h.1.2,h.2.2⟩

theorem splitLoop_escape {st : SplitState} (hb : b ≠ newline)
    (hst : st.inSingle = false) : splitLoop (backslash::b::rest) st =
      splitLoop rest { push st b with tokenStarted := st.tokenStarted || !st.inDouble } := by
  rw [splitLoop.eq_def]
  cases hd : st.inDouble <;>
    simp [push,hb,hst,hd,show backslash ≠ newline ∧ backslash ≠ carriageReturn ∧ backslash ≠ space ∧
      backslash ≠ tab ∧ backslash ≠ singleQuote ∧ backslash ≠ doubleQuote by decide]

theorem splitLoop_single (h : singleQuote ∉ bytes) (hline : OneLine bytes) :
    splitLoop (bytes++singleQuote::rest) ⟨out,buf,true,false,true⟩ =
      splitLoop rest ⟨out,buf++bytes,false,false,true⟩ := by
  induction bytes generalizing buf with
  | nil =>
    rw [splitLoop.eq_def]
    simp [singleQuote,newline,carriageReturn]
  | cons b bytes ih =>
    obtain ⟨hnl,hcr,hline⟩ := oneLine_cons hline
    simp only [mem_cons,not_or] at h
    rw [splitLoop.eq_def]
    simp [push,hnl,hcr,Ne.symm h.1,ih h.2 hline]

theorem splitLoop_double (hline : OneLine bytes) :
    splitLoop (bytes.flatMap (escape [backslash,doubleQuote])++doubleQuote::rest)
        ⟨out,buf,false,true,true⟩ = splitLoop rest ⟨out,buf++bytes,false,false,true⟩ := by
  induction bytes generalizing buf with
  | nil =>
    rw [flatMap_nil,splitLoop.eq_def]
    simp [doubleQuote,newline,carriageReturn]
  | cons b bytes ih =>
    obtain ⟨hnl,hcr,hline⟩ := oneLine_cons hline
    rw [flatMap_cons,append_assoc,escape]
    split
    next hin =>
      rw [cons_append,cons_append,splitLoop_escape hnl rfl]
      simp [push,ih hline]
    next hout =>
      simp only [mem_cons,not_or] at hout
      rw [splitLoop.eq_def]
      simp [push,hnl,hcr,hout,ih hline]

theorem splitLoop_piece (p : Piece) (hline : OneLine p.text) :
    splitLoop (p.write++rest) ⟨out,buf,false,false,started⟩ =
      splitLoop rest ⟨out,buf++p.text,false,false,true⟩ := by
  cases p with
  | single bytes hq =>
    rw [Piece.text,← splitLoop_single hq hline,Piece.write,splitLoop.eq_def]
    simp [singleQuote,newline,carriageReturn,space,tab]
  | double bytes =>
    change OneLine bytes at hline
    rw [Piece.text,← splitLoop_double hline,Piece.write,splitLoop.eq_def]
    simp [singleQuote,doubleQuote,newline,carriageReturn,space,tab]
  | bare b =>
    obtain ⟨hnl,hcr,_⟩ := oneLine_cons hline
    rw [Piece.write,escape,Piece.text]
    split
    next hin =>
      rw [cons_append,cons_append,splitLoop_escape hnl rfl]
      simp [push]
    next hout =>
      simp only [mem_cons,not_or] at hout
      rw [splitLoop.eq_def]
      simp [push,hnl,hcr,hout]

theorem splitLoop_pieces {ps : List Piece} (hline : OneLine (ps.flatMap Piece.text))
    (hps : ps = [] → started = true) :
    splitLoop (ps.flatMap Piece.write++rest) ⟨out,buf,false,false,started⟩ =
      splitLoop rest ⟨out,buf++ps.flatMap Piece.text,false,false,true⟩ := by
  induction ps generalizing buf started with
  | nil => simp [hps]
  | cons p ps ih =>
    simp only [OneLine,flatMap_cons,mem_append,not_or] at hline
    rw [flatMap_cons,append_assoc,splitLoop_piece p ⟨hline.1.1,hline.2.1⟩,
      ih ⟨hline.1.2,hline.2.2⟩ fun _ => rfl,flatMap_cons,append_assoc]

theorem splitLoop_blank (hb : b = space ∨ b = tab) :
    splitLoop (b::rest) ⟨out,buf,false,false,started⟩ =
      splitLoop rest (flush ⟨out,buf,false,false,started⟩) := by
  rw [splitLoop.eq_def]
  rcases hb with rfl | rfl <;> rfl

theorem splitLoop_blanks (h : Blanks bytes) : splitLoop (bytes++rest) ⟨out,buf,false,false,false⟩ =
      splitLoop rest ⟨out,buf,false,false,false⟩ := by
  induction bytes with
  | nil => rfl
  | cons b bytes ih =>
    obtain ⟨hb,hrest⟩ := forall_mem_cons.mp h
    rw [cons_append,splitLoop_blank hb]
    exact ih hrest

theorem flush_encode {token : List Char} (h : token ≠ []) :
    flush ⟨out,Utf8.encode token,false,false,true⟩ =
      ⟨out ++ [Utf8.encode token],[],false,false,false⟩ := by
  simp [flush,Utf8.fromUtf8Lossy_encode,Utf8.encode_ne_nil h]

theorem splitLoop_word (w : Word) : splitLoop (w.write++rest) ⟨out,[],false,false,false⟩ =
      splitLoop (w.gap++rest) ⟨out,Utf8.encode w.token,false,false,true⟩ := by
  rw [Word.write,append_assoc,splitLoop_pieces (w.text ▸ w.oneLine),w.text]
  · rfl
  · intro hnil
    have htext := w.text
    rw [hnil] at htext
    exact absurd htext.symm (Utf8.encode_ne_nil w.nonempty)

theorem flush_splitLoop_words {words : List Word} (h : ∀ w ∈ words.dropLast, w.gap ≠ []) :
    (flush (splitLoop (words.flatMap Word.write) ⟨out,[],false,false,false⟩)).out =
      out++words.map fun w => Utf8.encode w.token := by
  induction words generalizing out with
  | nil => simp [splitLoop,flush]
  | cons w words ih =>
    rw [flatMap_cons,splitLoop_word]
    cases hgap : w.gap with
    | nil =>
      have hlast : words = [] := by
        by_contra hne
        exact h w (by simp [dropLast_cons_of_ne_nil hne]) hgap
      simp [hlast,splitLoop,flush_encode w.nonempty]
    | cons b gap =>
      have hblanks := w.blanks
      rw [hgap] at hblanks
      obtain ⟨hb,hrest⟩ := forall_mem_cons.mp hblanks
      rw [cons_append,splitLoop_blank hb,flush_encode w.nonempty,splitLoop_blanks hrest,ih ?_]
      · simp
      · intro x hx
        apply h x
        cases words with
        | nil => cases hx
        | cons v words => exact mem_cons_of_mem _ hx

/-- Splitting the line gives back the tokens, however they are quoted. -/
theorem shebangSplit_inverts_quoting {lead : List UInt8} {words : List Word} (hlead : Blanks lead)
    (hgap : ∀ w ∈ words.dropLast, w.gap ≠ []) :
    shebangSplit (lead ++ words.flatMap Word.write) = words.map fun w => Utf8.encode w.token := by
  rw [shebangSplit,splitLoop_blanks hlead,flush_splitLoop_words hgap,nil_append]

/-- The line of the two tokens, `'a'\ ` and one character in two pieces. -/
def quotedWords : List Word :=
  [⟨['a',' '],by decide,⟨by decide,by decide⟩,[.single [97] (by decide),.bare 32],rfl,[9],
      by simp [Blanks,tab]⟩,
    ⟨['é'],by decide,⟨by decide,by decide⟩,[.bare 0xc3,.double [0xa9]],rfl,[],by simp [Blanks]⟩]

theorem shebangSplit_inverts_quoting_two :
    [space] ++ quotedWords.flatMap Word.write = [32,39,97,39,92,32,9,0xc3,34,0xa9,34] ∧
      shebangSplit ([space] ++ quotedWords.flatMap Word.write) = [[97,32],[0xc3,0xa9]] :=
  ⟨rfl,shebangSplit_inverts_quoting (by simp [Blanks]) (by simp [quotedWords])⟩

end Shebang

end Athera
