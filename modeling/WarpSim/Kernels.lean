import WarpSim.Lexer

/-!
# The kernels

The texts of kernels under `kernels/`, as they are read from their files.
-/

namespace WarpSim

namespace Kernels

/-- `kernels/vecadd_s32.wisa`. -/
def vecaddS32 : Text := "// Integer vector add: c[i] = a[i] + b[i] (s32, wraps) for i < n.
.entry vecadd_s32
.param a
.param b
.param c
.param n

    mov.sreg r0, %tid.x
    mov.sreg r1, %ctaid.x
    mov.sreg r2, %ntid.x
    mul     r1, r1, r2
    add     r0, r0, r1          // r0 = global index
    ld.param r3, [n]
    setp.ge.s32 p0, r0, r3
@p0 bra done
    shl     r4, r0, 2
    ld.param r5, [a]
    add     r5, r5, r4
    ld.global r6, [r5]
    ld.param r7, [b]
    add     r7, r7, r4
    ld.global r8, [r7]
    add     r6, r6, r8
    ld.param r9, [c]
    add     r9, r9, r4
    st.global [r9], r6
done:
    exit
".toList

/-- `kernels/torture/nested.wisa`. -/
def tortureNested : Text := "// Nested data-dependent branches to depth 3.
// out[i] = f(x[i]) where the path depends on bits and magnitude of x[i].
.entry nested
.param x
.param out
.param n
        mov.sreg r0, %tid.x
        mov.sreg r1, %ctaid.x
        mov.sreg r2, %ntid.x
        mul r1, r1, r2
        add r0, r0, r1              // i
        ld.param r3, [n]
        setp.ge.s32 p0, r0, r3
    @p0 bra done
        shl r4, r0, 2
        ld.param r5, [x]
        add r5, r5, r4
        ld.global r6, [r5]          // v = x[i]
        mov r10, 0
        and r7, r6, 1
        setp.eq.s32 p1, r7, 0
    @p1 bra even
        // odd
        add r10, r10, 1
        setp.lt.s32 p2, r6, 100
    @p2 bra small_odd
        // odd and >= 100
        add r10, r10, 20
        and r8, r6, 4
        setp.eq.s32 p3, r8, 0
    @p3 bra join_odd
        add r10, r10, 300
        bra join_odd
small_odd:
        sub r10, r10, 7
join_odd:
        mul r10, r10, 3
        bra join
even:
        add r10, r10, 2
        setp.gt.s32 p2, r6, 50
    @p2 bra big_even
        mul r10, r10, r6
        bra join
big_even:
        sub r10, r6, r10
join:
        ld.param r9, [out]
        add r9, r9, r4
        st.global [r9], r10
done:
        exit
".toList

/-- `kernels/torture/loops.wisa`. -/
def tortureLoops : Text := "// Data-dependent loop trip counts: out[i] = sum_\x7bk=0\x7d^\x7bx[i]-1\x7d (k * k + i) mod 1000003 style accumulation.
// Each lane iterates x[i] times (0..63); lanes in a warp diverge on the exit test.
.entry loops
.param x
.param out
.param n
        mov.sreg r0, %tid.x
        mov.sreg r1, %ctaid.x
        mov.sreg r2, %ntid.x
        mul r1, r1, r2
        add r0, r0, r1              // i
        ld.param r3, [n]
        setp.ge.s32 p0, r0, r3
    @p0 bra done
        shl r4, r0, 2
        ld.param r5, [x]
        add r5, r5, r4
        ld.global r6, [r5]          // trips
        mov r10, 0                  // acc
        mov r7, 0                   // k
top:    setp.ge.s32 p1, r7, r6
    @p1 bra finish
        mul r8, r7, r7
        add r8, r8, r0
        add r10, r10, r8
        add r7, r7, 1
        bra top
finish:
        ld.param r9, [out]
        add r9, r9, r4
        st.global [r9], r10
done:
        exit
".toList

/-- `kernels/torture/early_exit.wisa`. -/
def tortureEarlyExit : Text := "// Loop with an early exit and exit inside divergent code.
// Walk k from 0 while k < 64: stop early when (k * 7 + x[i]) mod 13 == 0 with k > 0,
// and lanes with x[i] mod 4 == 3 retire without writing out[i] (left as the
// sentinel the host wrote).
.entry early_exit
.param x
.param out
.param n
        mov.sreg r0, %tid.x
        mov.sreg r1, %ctaid.x
        mov.sreg r2, %ntid.x
        mul r1, r1, r2
        add r0, r0, r1              // i
        ld.param r3, [n]
        setp.ge.s32 p0, r0, r3
    @p0 bra done
        shl r4, r0, 2
        ld.param r5, [x]
        add r5, r5, r4
        ld.global r6, [r5]          // v
        and r7, r6, 3
        setp.eq.s32 p3, r7, 3
    @p3 exit                        // retire inside the kernel body
        mov r7, 0                   // k
        mov r10, 0                  // acc
top:    setp.ge.s32 p1, r7, 64
    @p1 bra finish
        add r10, r10, r7
        mul r8, r7, 7
        add r8, r8, r6
        rem r8, r8, 13
        setp.eq.s32 p2, r8, 0
        setp.gt.s32 p4, r7, 0
    @!p4 bra next
    @p2 bra finish                  // early exit from the loop
next:   add r7, r7, 1
        bra top
finish:
        ld.param r9, [out]
        add r9, r9, r4
        st.global [r9], r10
done:
        exit
".toList

/-- `kernels/torture/combined.wisa`. -/
def tortureCombined : Text := "// Everything at once: a loop whose body contains nested divergent branches
// and a conditional early exit; per-lane state feeds back into the branch
// conditions so that the active mask changes shape every iteration.
.entry combined
.param x
.param out
.param n
        mov.sreg r0, %tid.x
        mov.sreg r1, %ctaid.x
        mov.sreg r2, %ntid.x
        mul r1, r1, r2
        add r0, r0, r1              // i
        ld.param r3, [n]
        setp.ge.s32 p0, r0, r3
    @p0 bra done
        shl r4, r0, 2
        ld.param r5, [x]
        add r5, r5, r4
        ld.global r6, [r5]          // state
        mov r7, 0                   // k
        mov r10, 0                  // acc
top:    setp.ge.s32 p1, r7, 32
    @p1 bra finish
        and r8, r6, 1
        setp.eq.s32 p2, r8, 0
    @p2 bra even
        // odd: state = 3 * state + 1 (wrapping), acc += k
        mul r6, r6, 3
        add r6, r6, 1
        add r10, r10, r7
        and r8, r6, 2
        setp.eq.s32 p3, r8, 0
    @p3 bra step
        // odd and bit 1 set: nested level 2
        xor r10, r10, r6
        and r8, r6, 4
        setp.eq.s32 p4, r8, 0
    @p4 bra step
        // nested level 3
        sub r10, r10, 5
        bra step
even:   // state = state / 2, acc += state, early exit when state becomes 0
        sra r6, r6, 1
        add r10, r10, r6
        setp.eq.s32 p5, r6, 0
    @p5 bra finish
step:   add r7, r7, 1
        bra top
finish:
        ld.param r9, [out]
        add r9, r9, r4
        st.global [r9], r10
done:
        exit
".toList

/-- `kernels/vecadd.wisa`. -/
def vecadd : Text := "// Vector add: c[i] = a[i] + b[i] for i < n. One lane per element.
.entry vecadd
.param a
.param b
.param c
.param n

    mov.sreg r0, %tid.x
    mov.sreg r1, %ctaid.x
    mov.sreg r2, %ntid.x
    mul     r1, r1, r2
    add     r0, r0, r1          // r0 = global index
    ld.param r3, [n]
    setp.ge.s32 p0, r0, r3
@p0 bra done
    shl     r4, r0, 2           // byte offset
    ld.param r5, [a]
    add     r5, r5, r4
    ld.global r6, [r5]
    ld.param r7, [b]
    add     r7, r7, r4
    ld.global r8, [r7]
    fadd    r6, r6, r8
    ld.param r9, [c]
    add     r9, r9, r4
    st.global [r9], r6
done:
    exit
".toList

/-- `kernels/reduce.wisa`. -/
def reduce : Text := "// Block reduction: partial[b] = sum of x[256 b .. 256 b + 255] (s32, wraps),
// elements at or past n count as 0. Block size must be 256.
//
// Tree reduction in shared memory: at stride s, lanes below s add the value
// s positions above; the active set halves each step, which is the
// divergence this kernel exists to exercise. Every step ends in a barrier
// executed at the reconvergence point so that the warp is whole again.
.entry reduce
.param x
.param partial
.param n
.shared 1024

        mov.sreg r0, %tid.x         // tid
        mov.sreg r1, %ctaid.x       // block
        shl r2, r1, 8
        add r2, r2, r0              // i = block * 256 + tid
        mov r3, 0                   // v = 0
        ld.param r4, [n]
        setp.ge.s32 p0, r2, r4
    @p0 bra stage
        shl r5, r2, 2
        ld.param r6, [x]
        add r6, r6, r5
        ld.global r3, [r6]          // v = x[i]
stage:
        shl r7, r0, 2               // tid * 4
        st.shared [r7], r3
        bar.sync
        mov r8, 128                 // stride
loop:
        setp.ge.s32 p1, r0, r8
    @p1 bra skip
        shl r9, r8, 2
        add r9, r9, r7              // (tid + stride) * 4
        ld.shared r10, [r7]
        ld.shared r11, [r9]
        add r10, r10, r11
        st.shared [r7], r10
skip:
        bar.sync
        shr r8, r8, 1
        setp.gt.s32 p2, r8, 0
    @p2 bra loop
        setp.ne.s32 p3, r0, 0
    @p3 exit
        mov r12, 0
        ld.shared r13, [r12]
        shl r14, r1, 2
        ld.param r15, [partial]
        add r15, r15, r14
        st.global [r15], r13
        exit
".toList

/-- `kernels/matmul_naive.wisa`. -/
def matmulNaive : Text := "// Naive matmul: C[M][N] = A[M][K] B[K][N], float32, one lane per element.
// Block 16 x 16; grid covers N (x) by M (y). The inner loop reads A along a
// row (the same word for the 16 lanes of a row, broadcast) and B down a
// column with a stride of N words across k, so each warp-level load of B
// touches one segment per row of the warp: the uncoalesced baseline.
.entry matmul_naive
.param a
.param b
.param c
.param m
.param n
.param k

        mov.sreg r0, %tid.x
        mov.sreg r1, %tid.y
        mov.sreg r2, %ctaid.x
        mov.sreg r3, %ctaid.y
        shl r2, r2, 4
        add r2, r2, r0              // col
        shl r3, r3, 4
        add r3, r3, r1              // row
        ld.param r4, [m]
        ld.param r5, [n]
        ld.param r6, [k]
        setp.ge.s32 p0, r3, r4
    @p0 exit                        // row out of range
        setp.ge.s32 p1, r2, r5
    @p1 exit                        // col out of range
        mul r7, r3, r6
        shl r7, r7, 2
        ld.param r8, [a]
        add r7, r7, r8              // &A[row][0]
        shl r9, r2, 2
        ld.param r10, [b]
        add r9, r9, r10             // &B[0][col]
        shl r11, r5, 2              // row stride of B in bytes
        mov r12, 0.0                // acc
        mov r13, 0                  // kk
loop:
        setp.ge.s32 p2, r13, r6
    @p2 bra done
        ld.global r14, [r7]         // A[row][kk]
        ld.global r15, [r9]         // B[kk][col]
        ffma r12, r14, r15          // acc = a * b + acc
        add r7, r7, 4
        add r9, r9, r11
        add r13, r13, 1
        bra loop
done:
        mul r16, r3, r5
        add r16, r16, r2
        shl r16, r16, 2
        ld.param r17, [c]
        add r16, r16, r17
        st.global [r16], r12
        exit
".toList

/-- `kernels/matmul_tiled.wisa`. -/
def matmulTiled : Text := "// Tiled matmul: C[M][N] = A[M][K] B[K][N], float32, 16 x 16 tiles staged
// through shared memory. Block 16 x 16; grid covers N (x) by M (y).
//
// Per tile step every lane loads one element of A and one of B (16
// consecutive words per row of the warp: coalesced), the block barriers,
// each lane runs 16 fused multiply-adds from shared memory, and the block
// barriers again before the next tile overwrites the buffers.
//
// Shared layout: As at byte 0, Bs at byte 1024, each 16 x 16 words row
// major. Reads of As broadcast within a row of the warp and the two rows
// hit different banks; reads of Bs are 16 consecutive words broadcast to
// both half-warps. Neither pattern conflicts, so no padding is needed.
//
// Out-of-range lanes do not exit: they must still load zeros and take the
// barriers so that in-range lanes of the same block see whole tiles.
.entry matmul_tiled
.param a
.param b
.param c
.param m
.param n
.param k
.shared 2048

        mov.sreg r0, %tid.x         // tx
        mov.sreg r1, %tid.y         // ty
        mov.sreg r2, %ctaid.x
        mov.sreg r3, %ctaid.y
        shl r2, r2, 4
        add r2, r2, r0              // col
        shl r3, r3, 4
        add r3, r3, r1              // row
        ld.param r4, [m]
        ld.param r5, [n]
        ld.param r6, [k]
        ld.param r7, [a]
        ld.param r8, [b]
        shl r9, r1, 4
        add r9, r9, r0
        shl r9, r9, 2               // (ty * 16 + tx) * 4: this lane's slot in As and Bs
        add r10, r9, 1024           // slot in Bs
        shl r11, r1, 6              // ty * 16 * 4: start of As row ty
        shl r12, r0, 2
        add r12, r12, 1024          // 1024 + tx * 4: start of Bs column tx
        mov r13, 0.0                // acc
        mov r14, 0                  // t0 = first k of the current tile
        setp.lt.s32 p4, r3, r4      // row in range
        setp.lt.s32 p5, r2, r5      // col in range
tile:
        setp.ge.s32 p0, r14, r6
    @p0 bra finish
        // As[ty][tx] = A[row][t0 + tx] or 0
        mov r15, 0.0
        add r16, r14, r0            // kA = t0 + tx
        setp.lt.s32 p1, r16, r6
    @!p4 bra skip_a
    @!p1 bra skip_a
        mul r17, r3, r6
        add r17, r17, r16
        shl r17, r17, 2
        add r17, r17, r7
        ld.global r15, [r17]
skip_a:
        st.shared [r9], r15
        // Bs[ty][tx] = B[t0 + ty][col] or 0
        mov r18, 0.0
        add r19, r14, r1            // kB = t0 + ty
        setp.lt.s32 p2, r19, r6
    @!p5 bra skip_b
    @!p2 bra skip_b
        mul r20, r19, r5
        add r20, r20, r2
        shl r20, r20, 2
        add r20, r20, r8
        ld.global r18, [r20]
skip_b:
        st.shared [r10], r18
        bar.sync
        mov r21, 0                  // kk
        mov r22, r11                // &As[ty][0]
        mov r23, r12                // &Bs[0][tx]
inner:
        ld.shared r24, [r22]
        ld.shared r25, [r23]
        ffma r13, r24, r25
        add r22, r22, 4
        add r23, r23, 64
        add r21, r21, 1
        setp.lt.s32 p3, r21, 16
    @p3 bra inner
        bar.sync
        add r14, r14, 16
        bra tile
finish:
    @!p4 exit
    @!p5 exit
        mul r26, r3, r5
        add r26, r26, r2
        shl r26, r26, 2
        ld.param r27, [c]
        add r26, r26, r27
        st.global [r26], r13
        exit
".toList

end Kernels

end WarpSim
