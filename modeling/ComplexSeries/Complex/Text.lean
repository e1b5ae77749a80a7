import ComplexSeries.Complex.Basic

/-! Two spellings of a complex number: a bracketed literal that a formula may hold, written without
leading signs, and the plain sum of its parts for messages. -/
namespace ComplexSeries.Complex

open Scalar (zero)

variable {R : Type} [Scalar R]

/-- The magnitude of a scalar as the digits of a literal. -/
def digits (a : R) : List Char := Scalar.text (Scalar.abs a)

def imaginary (a : R) : List Char := digits a ++ ['*', 'i']

/-- Parts that are zero are left out, and a part below zero is subtracted. -/
def literal (z : Complex R) : List Char :=
  let body :=
    if z.re == zero && z.im == zero then ['0']
    else if z.im == zero then
      if zero < z.re then digits z.re else '0' :: '-' :: digits z.re
    else if z.re == zero then
      if zero < z.im then imaginary z.im else '0' :: '-' :: imaginary z.im
    else if zero < z.re then
      digits z.re ++ (if zero < z.im then '+' else '-') :: imaginary z.im
    else '0' :: '-' :: digits z.re ++ (if zero < z.im then '+' else '-') :: imaginary z.im
  '(' :: (body ++ [')'])

/-- A scalar without the sign it has when it is below zero. -/
def unsigned (a : R) : List Char := Scalar.text (if a < zero then zero - a else a)

def text (z : Complex R) : List Char :=
  (if z.re < zero then ['-'] else []) ++ unsigned z.re ++
    (if z.im < zero then '-' else '+') :: unsigned z.im ++ ['i']

end ComplexSeries.Complex
